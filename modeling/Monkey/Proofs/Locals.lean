import Monkey.Proofs.Marks
import Monkey.Proofs.WellFormed

/-!
# The slots of local names

A function has one slot for each of its names: first for its parameters, then for the names that its
body binds. Each name has a slot of its own, and when no parameter has the name of another one, the
slots of the names behind the parameters are those behind the arguments. A parameter that is repeated
has one slot for two arguments, so there the names that come behind it have the slots of arguments.

`Carried.locals` says this of every function that a program compiles to.
-/

namespace Monkey

open Resolving

/-! ### Names that are bound on the way -/

/-- The innermost names stay when more are bound. -/
theorem Scope.Grows.names : ∀ {s s' : Scope}, s.Grows s' → s.names.Extends s'.names
  | outermost _, outermost _, h => h
  | nested _ _, nested _ _, h => h.1

/-- On the way from `w` to `w'` the names of the marks are bound in the innermost scope. -/
structure Walk.Binds (w w' : Walk) (marks : List Mark) : Prop where
  grows : w.scope.Grows w'.scope
  isSome : ∀ x, Mark.bound x ∈ marks → (w'.scope.names.find? x).isSome

namespace Walk.Binds

variable {w w₁ w' : Walk} {marks marks' : List Mark}

theorem none (hscope : w'.scope = w.scope) : w.Binds w' [] where
  grows := hscope ▸ .refl _
  isSome _ hx := absurd hx List.not_mem_nil

/-- What was bound first stays bound. -/
theorem append (h : w.Binds w₁ marks) (h' : w₁.Binds w' marks') : w.Binds w' (marks ++ marks') where
  grows := h.grows.trans h'.grows
  isSome x hx := by
    rcases List.mem_append.mp hx with hx | hx
    · obtain ⟨slot, hslot⟩ := Option.isSome_iff_exists.mp (h.isSome x hx)
      exact Option.isSome_of_eq_some (h'.grows.names x slot hslot)
    · exact h'.isSome x hx

/-- Other marks bind nothing. -/
theorem returned (h : w.Binds w' marks) : w.Binds w' (marks ++ [.returned]) where
  grows := h.grows
  isSome x hx := by
    rcases List.mem_append.mp hx with hx | hx
    · exact h.isSome x hx
    · cases List.mem_singleton.mp hx

/-- A name is bound before its value is walked through. -/
theorem define {x : String} {s : Symbol} (hs : Resolving.define x w = some (s, w₁))
    (h : w₁.Binds w' marks) : w.Binds w' (marks ++ [.bound x]) := by
  obtain ⟨hfound, rfl⟩ := Resolving.define_eq_some.mp hs
  refine ⟨(w.scope.grows_define x).trans h.grows, fun y hy => ?_⟩
  rcases List.mem_append.mp hy with hy | hy
  · exact h.isSome y hy
  · obtain rfl := Mark.bound.inj (List.mem_singleton.mp hy)
    obtain ⟨slot, hslot, -⟩ := Scope.find?_eq_some_iff.mp hfound
    exact Option.isSome_of_eq_some (h.grows.names y slot hslot)

end Walk.Binds

/-- The names of a function literal are gone behind it. -/
theorem Resolving.binds_function {name : Option String} {parameters : List String}
    {body : Resolving (List Command)} {w w' : Walk} {t : Term}
    (h : Resolving.function name parameters body w = some (t, w')) : w.Binds w' [] := by
  obtain ⟨w₁, cs, w₂, -, -, rfl, rfl⟩ := Resolving.function_eq_some.mp h
  exact .none rfl

theorem Resolving.binds_store {x : String} {value : Resolving Term} {marks : List Mark}
    {w w' : Walk} {cs : List Command}
    (hvalue : ∀ {w w' t}, value w = some (t, w') → w.Binds w' marks)
    (h : (do let s ← define x; return [Command.store s (← value)]) w = some (cs, w')) :
    w.Binds w' (marks ++ [.bound x]) := by
  obtain ⟨s, w₁, hs, t, ht, rfl⟩ := store_eq_some.mp h
  exact (hvalue ht).define hs

mutual

theorem Expr.binds (e : Expr) {w w' : Walk} {t : Term} (h : e.resolve w = some (t, w')) :
    w.Binds w' e.marks := by
  cases e with
  | name id =>
    obtain ⟨s, -, rfl, -⟩ := Expr.resolve_name.mp h
    exact .none rfl
  | integer _ n =>
    obtain ⟨rfl, -⟩ := Expr.resolve_integer.mp h
    exact .none rfl
  | string _ s =>
    obtain ⟨rfl, -⟩ := Expr.resolve_string.mp h
    exact .none rfl
  | boolean _ b =>
    obtain ⟨-, rfl⟩ := Expr.resolve_boolean.mp h
    exact .none rfl
  | unary _ op e =>
    obtain ⟨t₁, h₁, -⟩ := Expr.resolve_unary.mp h
    exact Expr.binds e h₁
  | binary _ op l r =>
    by_cases hop : op = .lt
    · -- the right operand comes first
      subst hop
      obtain ⟨t₁, w₁, h₁, t₂, h₂, -⟩ := Expr.resolve_lt.mp h
      rw [Expr.marks, if_pos rfl]
      exact (Expr.binds r h₁).append (Expr.binds l h₂)
    · obtain ⟨t₁, w₁, h₁, t₂, h₂, -⟩ := (Expr.resolve_binary hop).mp h
      rw [Expr.marks, if_neg hop]
      exact (Expr.binds l h₁).append (Expr.binds r h₂)
  | cond _ condition consequence alternative =>
    cases alternative with
    | none =>
      obtain ⟨c, w₁, hc, yes, hyes, -⟩ := Expr.resolve_cond_none.mp h
      exact (Expr.binds condition hc).append (Block.binds consequence hyes)
    | some block =>
      obtain ⟨c, w₁, hc, yes, w₂, hyes, no, hno, -⟩ := Expr.resolve_cond_some.mp h
      have hbranches := (Block.binds consequence hyes).append (Block.binds block hno)
      exact (Expr.binds condition hc).append hbranches
  | function _ parameters body => exact binds_function h
  | call _ callee arguments =>
    obtain ⟨f, w₁, hf, ts, hts, -⟩ := Expr.resolve_call.mp h
    exact (Expr.binds callee hf).append (Expr.bindsAll arguments hts)
  | array _ elements =>
    obtain ⟨ts, hts, -⟩ := Expr.resolve_array.mp h
    exact Expr.bindsAll elements hts
  | hash _ pairs =>
    obtain ⟨ts, hts, -⟩ := Expr.resolve_hash.mp h
    exact Expr.bindsPairs pairs hts
  | index _ collection key =>
    obtain ⟨t₁, w₁, h₁, t₂, h₂, -⟩ := Expr.resolve_index.mp h
    exact (Expr.binds collection h₁).append (Expr.binds key h₂)
termination_by structural e

theorem Expr.bindsAll (es : List Expr) {w w' : Walk} {ts : List Term}
    (h : Expr.resolveAll es w = some (ts, w')) : w.Binds w' (Expr.marksAll es) := by
  cases es with
  | nil =>
    obtain ⟨-, rfl⟩ := Expr.resolveAll_nil.mp h
    exact .none rfl
  | cons e es =>
    obtain ⟨t, w₁, ht, ts, hts, -⟩ := Expr.resolveAll_cons.mp h
    exact (Expr.binds e ht).append (Expr.bindsAll es hts)
termination_by structural es

theorem Expr.bindsPairs (ps : List (Expr × Expr)) {w w' : Walk} {ts : List Term}
    (h : Expr.resolvePairs ps w = some (ts, w')) : w.Binds w' (Expr.marksPairs ps) := by
  cases ps with
  | nil =>
    obtain ⟨-, rfl⟩ := Expr.resolvePairs_nil.mp h
    exact .none rfl
  | cons p ps =>
    cases p with
    | mk key value =>
    obtain ⟨k, w₁, hk, v, w₂, hv, ts, hts, -⟩ := Expr.resolvePairs_cons.mp h
    have hrest := (Expr.binds value hv).append (Expr.bindsPairs ps hts)
    exact (Expr.binds key hk).append hrest
termination_by structural ps

theorem Block.binds (b : Block) {w w' : Walk} {cs : List Command}
    (h : b.resolve w = some (cs, w')) : w.Binds w' b.marks := by
  cases b with
  | mk _ statements => exact Stmt.bindsAll statements h
termination_by structural b

theorem Stmt.binds (s : Stmt) {w w' : Walk} {cs : List Command}
    (h : s.resolve w = some (cs, w')) : w.Binds w' s.marks := by
  cases s with
  | bind _ id value =>
    -- only a function literal takes the name that it is bound to
    cases value with
    | function _ parameters body => exact binds_store (fun ht => binds_function ht) h
    | _ => exact binds_store (fun ht => Expr.binds _ ht) h
  | ret _ value =>
    obtain ⟨t, ht, -⟩ := Stmt.resolve_ret.mp h
    exact (Expr.binds value ht).returned
  | expr _ value =>
    obtain ⟨t, ht, -⟩ := Stmt.resolve_expr.mp h
    exact Expr.binds value ht
  | block body => exact Block.binds body h
termination_by structural s

/-- **The names that statements bind** are in scope behind them. -/
theorem Stmt.bindsAll (ss : List Stmt) {w w' : Walk} {cs : List Command}
    (h : Stmt.resolveAll ss w = some (cs, w')) : w.Binds w' (Stmt.marksAll ss) := by
  cases ss with
  | nil =>
    obtain ⟨-, rfl⟩ := Stmt.resolveAll_nil.mp h
    exact .none rfl
  | cons s ss =>
    obtain ⟨cs₁, w₁, h₁, cs₂, h₂, -⟩ := Stmt.resolveAll_cons.mp h
    exact (Stmt.binds s h₁).append (Stmt.bindsAll ss h₂)
termination_by structural ss

end

/-! ### Functions -/

/-- The parameters of a function are bound one after the other. -/
theorem Resolving.scope_defineAll {xs : List String} {w w' : Walk}
    (h : defineAll xs w = some ((), w')) :
    w'.scope = xs.foldl (fun s x => s.define x) w.scope := by
  induction xs generalizing w with
  | nil =>
    obtain ⟨-, rfl⟩ := pure_eq_some.mp h
    rfl
  | cons x xs ih =>
    obtain ⟨s, w₁, hx, hxs⟩ := bind_eq_some.mp h
    obtain ⟨-, rfl⟩ := define_eq_some.mp hx
    exact ih hxs

/-- The names of a function are its parameters, and then those that its body binds. -/
theorem Resolves.names {f : List Ident × Block} {names : Numbering String} {body : List Command}
    (h : Resolves f names body) :
    ((f.1.map Ident.name).foldl Numbering.add .empty).Extends names ∧
      ∀ x, Mark.bound x ∈ f.2.marks → (names.find? x).isSome := by
  obtain ⟨w, w₁, w₂, hparameters, hbody, rfl⟩ := h
  have hbinds := Block.binds _ hbody
  have hnames : w₁.scope.names = (f.1.map Ident.name).foldl Numbering.add .empty := by
    rw [scope_defineAll hparameters, Scope.enclose, foldl_define_nested, Scope.names]
  rw [← hnames]
  exact ⟨hbinds.grows.names, hbinds.isSome⟩

/-- The function is the function literal, compiled, and these are the names that it has slots for. -/
structure Function.Compiles (f : Function) (literal : List Ident × Block)
    (names : Numbering String) : Prop where
  parameters : f.parameters = literal.1.length
  locals : f.locals = names.size
  code : ∃ body, Resolves literal names body ∧ f.code = Command.bodyCode body
  dense : names.Dense

/-- The slot is that of the name in the function that the literal is compiled to, and of no other
name. -/
def Function.HasLocal (f : Function) (literal : List Ident × Block) (x : String) (slot : Nat) : Prop :=
  ∃ names, f.Compiles literal names ∧ ∀ y, names.find? y = some slot ↔ y = x

/-- **The slot of a name that the body binds** is one behind the arguments when no parameter is
repeated. -/
theorem Function.Compiles.exists_slot {f : Function} {literal : List Ident × Block}
    {names : Numbering String} (h : f.Compiles literal names) {x : String}
    (hx : Mark.bound x ∈ literal.2.marks) (hparameter : x ∉ literal.1.map Ident.name) :
    ∃ slot, f.HasLocal literal x slot ∧ slot < f.locals ∧
      ((literal.1.map Ident.name).Nodup → f.parameters ≤ slot) := by
  obtain ⟨body, hresolves, -⟩ := h.code
  obtain ⟨hextends, hbound⟩ := hresolves.names
  obtain ⟨slot, hslot⟩ := Option.isSome_iff_exists.mp (hbound x hx)
  refine ⟨slot, ⟨names, h, fun y => ⟨?_, ?_⟩⟩, ?_, fun hnodup => ?_⟩
  · exact fun hy => h.dense.injective hy hslot
  · rintro rfl
    exact hslot
  · rw [h.locals]
    exact h.dense.lt_size hslot
  · by_contra hlt
    rw [h.parameters, Nat.not_le, ← List.length_map (f := Ident.name)] at hlt
    -- the slot would be that of a parameter
    have hfirst := Numbering.find?_foldl_add hnodup Numbering.dense_empty (fun _ _ => by simp)
      (List.getElem?_eq_getElem hlt)
    rw [Numbering.size_empty, Nat.zero_add] at hfirst
    have hname := h.dense.injective (hextends _ _ hfirst) hslot
    exact hparameter (hname ▸ List.getElem_mem hlt)

/-- **The functions that a program compiles to** are its function literals, in the order of their
ends. -/
theorem Carried.compiles {s : Scope} {k : Array Value} {p : Program} {c : Compilation}
    (h : Carried s k) (hadd : (Compilation.resume s k).add p = (.ok (), c)) :
    ∃ added, c.chunk.constants.toList = k.toList ++ added ∧
      List.Forall₂ (fun f literal => ∃ names, Function.Compiles f literal names)
        (added.filterMap Value.function?) p.functions := by
  obtain ⟨w, cs, w', hw, hcs, hc⟩ := h.compiled hadd
  obtain ⟨-, ls, hls, hof⟩ := Stmt.resolveAll_inventory p.statements hcs
  refine ⟨ls.mapIdx fun i => Literal.value (i + w.literals.size), ?_, ?_⟩
  · have hk : k = Literal.values w.literals := hw.constants
    simp [hk, Compilation.chunk, hc.follows.constants, Literal.values, hls, List.mapIdx_append]
  · apply Literal.forall₂_functions hof
    intro i name names body literal hmem _ hresolves
    have hmem' : .function name (literal.1.map Ident.name) names body ∈ w'.literals := by
      simp [← Array.mem_toList_iff, hls, hmem]
    obtain ⟨j, hj, hliteral⟩ := Array.mem_iff_getElem.mp hmem'
    have hscoped := hc.walk.sound.literals j _ (Array.getElem?_eq_some_iff.mpr ⟨hj, hliteral⟩)
    exact ⟨names, rfl, rfl, ⟨body, hresolves, rfl⟩, hscoped.1⟩

/-! ### A name that is bound to itself -/

/-- A name. -/
def Ident.named (x : String) : Ident := ⟨⟨.ident, x, default⟩⟩

/-- The body `{ let b = b; b }`. -/
def Block.selfBound : Block :=
  .mk default [.bind default (.named "b") (.name (.named "b")), .expr default (.name (.named "b"))]

/-- The function `fn(…) { let b = b; b }`, compiled first of all, with one slot for its parameters. -/
def Function.selfBound (parameters : Nat) : Function :=
  ⟨0, #[24, 1, 25, 1, 24, 1, 22], 2, parameters, none⟩

/-- A compilation inside the first function of a program. -/
def Compilation.inside (ns : Numbering String) (b : Buffer) : Compilation :=
  { Compilation.empty.enter with scope := .nested ns .empty, buffer := b }

namespace Compiling

variable {slot : Nat}

/-- A name that has a slot is bound, inside a function. -/
theorem gives_define_inside (id : Ident) (ns : Numbering String) (b : Buffer)
    (h : (ns.add id.name).find? id.name = some slot) (hslot : slot < maxLocals) :
    Gives (define id) (.inside ns b) ⟨id.name, .frame, slot⟩ (.inside (ns.add id.name) b) :=
  gives_define_of_slot h hslot

/-- A name that has a slot is read there. -/
theorem gives_load_inside (id : Ident) (ns : Numbering String) (b b' : Buffer)
    (h : ns.find? id.name = some slot)
    (hemit : Gives (emit .getLocal [slot]) (.inside ns b) () (.inside ns b')) :
    Gives (load id) (.inside ns b) () (.inside ns b') := by
  refine gives_load.mpr ⟨⟨id.name, .frame, slot⟩, ?_, hemit⟩
  rw [Compilation.inside, Scope.resolve, Scope.find?, Scope.names, h]
  rfl

/-- However often a parameter is repeated, it has one slot. -/
theorem gives_defineAll_replicate (n : Nat) :
    Gives (defineAll (List.replicate (n + 1) (.named "x"))) Compilation.empty.enter ()
      (.inside (.add .empty "x") .empty) := by
  have hx : (Numbering.add .empty "x").find? "x" = some 0 := Numbering.find?_add_empty "x"
  have hagain : (Numbering.add .empty "x").add "x" = Numbering.add .empty "x" := by
    rw [Numbering.add, hx]
  have hmore : ∀ n, Gives (defineAll (List.replicate n (.named "x")))
      (.inside (.add .empty "x") .empty) () (.inside (.add .empty "x") .empty) := by
    intro n
    induction n with
    | zero => rfl
    | succ n ih =>
      have hdefine := gives_define_inside (.named "x") (.add .empty "x") .empty
        (hagain.symm ▸ hx) (by decide)
      rw [show (Ident.named "x").name = "x" from rfl, hagain] at hdefine
      exact gives_bind.mpr ⟨_, _, hdefine, ih⟩
  exact gives_bind.mpr ⟨_, _, gives_define_inside (.named "x") .empty .empty hx (by decide), hmore n⟩

/-- The name is read, stored and read again. -/
theorem gives_block_selfBound {ns : Numbering String}
    (hslot : (ns.add "b").find? "b" = some 1) :
    Gives Block.selfBound.compile (.inside ns .empty) () (.inside (ns.add "b")
      ⟨#[24, 1, 25, 1, 24, 1, 2], some ⟨.pop, 6⟩, some ⟨.getLocal, 4⟩⟩) := by
  have hload := gives_load_inside (.named "b") (ns.add "b") .empty
    ⟨#[24, 1], some ⟨.getLocal, 0⟩, none⟩ hslot rfl
  have hbind : Gives (Stmt.bind default (.named "b") (.name (.named "b"))).compile
      (.inside ns .empty) () (.inside (ns.add "b")
        ⟨#[24, 1, 25, 1], some ⟨.setLocal, 2⟩, some ⟨.getLocal, 0⟩⟩) :=
    gives_bind.mpr ⟨_, _, gives_define_inside (.named "b") ns .empty hslot (by decide),
      gives_bind.mpr ⟨(), _, hload, rfl⟩⟩
  have hreload := gives_load_inside (.named "b") (ns.add "b")
    ⟨#[24, 1, 25, 1], some ⟨.setLocal, 2⟩, some ⟨.getLocal, 0⟩⟩
    ⟨#[24, 1, 25, 1, 24, 1], some ⟨.getLocal, 4⟩, some ⟨.setLocal, 2⟩⟩ hslot rfl
  have hexpr : Gives (Stmt.expr default (.name (.named "b"))).compile
      (.inside (ns.add "b") ⟨#[24, 1, 25, 1], some ⟨.setLocal, 2⟩, some ⟨.getLocal, 0⟩⟩) ()
      (.inside (ns.add "b")
        ⟨#[24, 1, 25, 1, 24, 1, 2], some ⟨.pop, 6⟩, some ⟨.getLocal, 4⟩⟩) :=
    gives_bind.mpr ⟨(), _, hreload, rfl⟩
  exact gives_bind.mpr ⟨(), _, hbind, gives_bind.mpr ⟨(), _, hexpr, rfl⟩⟩

/-- What `fn(x) { let b = b; b }` compiles to, with any number of further parameters `x`. -/
theorem gives_selfBound (n : Nat) :
    Gives (Expr.function default (List.replicate (n + 1) (.named "x")) Block.selfBound).compile
      .empty () ⟨#[.function (.selfBound (n + 1))], .empty,
        Buffer.empty.append .constant [0, 0, 0], []⟩ := by
  have hslot : ((Numbering.add .empty "x").add "b").find? "b" = some 1 := by
    simp [Numbering.find?_add, Numbering.size_add]
  have hsize : ((Numbering.add .empty "x").add "b").size = 2 := by
    simp [Numbering.find?_add, Numbering.size_add]
  have hbody : Gives (do
      Block.selfBound.compile
      finishBody) (.inside (.add .empty "x") .empty) () (.inside (.add (.add .empty "x") "b")
        ⟨#[24, 1, 25, 1, 24, 1, 22], some ⟨.returnValue, 6⟩, some ⟨.getLocal, 4⟩⟩) :=
    gives_bind.mpr ⟨(), _, gives_block_selfBound hslot, rfl⟩
  refine gives_function.mpr ⟨_, _, gives_defineAll_replicate n, hbody, ?_⟩
  -- the function has as many parameters as were written, and a slot for each name
  rw [List.length_replicate, Compilation.close, Compilation.inside, Scope.size, Scope.names, hsize]
  rfl

end Compiling

open Compiling

/-- The program `fn(x, …) { let b = b; b }(…)`, with a parameter `x` for each argument. -/
def Program.selfBound (arguments : List Int64) : Program where
  statements := [.expr default (.call default
    (.function default (List.replicate arguments.length (.named "x")) Block.selfBound)
    (arguments.map (.integer default)))]

/-- What the program compiles to with one argument, and with two. -/
def Compilation.selfBoundOne : Compilation :=
  ⟨#[.function (.selfBound 1), .integer 1], .empty,
    ⟨#[0, 0, 0, 0, 0, 1, 21, 1, 2], some ⟨.pop, 8⟩, some ⟨.call, 6⟩⟩, []⟩

@[inherit_doc Compilation.selfBoundOne]
def Compilation.selfBoundTwo : Compilation :=
  ⟨#[.function (.selfBound 2), .integer 1, .integer 2], .empty,
    ⟨#[0, 0, 0, 0, 0, 1, 0, 0, 2, 21, 2, 2], some ⟨.pop, 11⟩, some ⟨.call, 9⟩⟩, []⟩

theorem Program.add_selfBound_one :
    (Compilation.resume .empty #[]).add (selfBound [1]) = (.ok (), .selfBoundOne) := by
  have hcall : Gives (Expr.call default (.function default [.named "x"] Block.selfBound)
      [.integer default 1]).compile .empty () ⟨#[.function (.selfBound 1), .integer 1], .empty,
        ⟨#[0, 0, 0, 0, 0, 1, 21, 1], some ⟨.call, 6⟩, some ⟨.constant, 3⟩⟩, []⟩ :=
    gives_bind.mpr ⟨(), _, gives_selfBound 0, rfl⟩
  exact gives_bind.mpr ⟨(), _, gives_bind.mpr ⟨(), _, hcall, rfl⟩, rfl⟩

theorem Program.add_selfBound_two :
    (Compilation.resume .empty #[]).add (selfBound [1, 2]) = (.ok (), .selfBoundTwo) := by
  have hcall : Gives (Expr.call default (.function default [.named "x", .named "x"] Block.selfBound)
      [.integer default 1, .integer default 2]).compile .empty ()
      ⟨#[.function (.selfBound 2), .integer 1, .integer 2], .empty,
        ⟨#[0, 0, 0, 0, 0, 1, 0, 0, 2, 21, 2], some ⟨.call, 9⟩, some ⟨.constant, 6⟩⟩, []⟩ :=
    gives_bind.mpr ⟨(), _, gives_selfBound 1, rfl⟩
  exact gives_bind.mpr ⟨(), _, gives_bind.mpr ⟨(), _, hcall, rfl⟩, rfl⟩

/-- The slot of the name is the one behind that of the parameters. -/
theorem Function.HasLocal.selfBound {n slot : Nat} {parameters : List Ident}
    (h : Function.HasLocal (.selfBound n) (.named "x" :: parameters, Block.selfBound) "b" slot) :
    slot = 1 := by
  obtain ⟨names, hcompiles, hname⟩ := h
  obtain ⟨body, hresolves, -⟩ := hcompiles.code
  have hx : names.find? "x" = some 0 := by
    apply hresolves.names.1
    apply Numbering.extends_foldl_add (Numbering.add .empty "x")
    exact Numbering.find?_add_empty "x"
  have hlt : slot < 2 := by
    have hlt := hcompiles.dense.lt_size ((hname "b").mpr rfl)
    rwa [← hcompiles.locals] at hlt
  have hne : slot ≠ 0 := by
    rintro rfl
    exact absurd ((hname "x").mp hx) (by decide)
  omega

end Monkey
