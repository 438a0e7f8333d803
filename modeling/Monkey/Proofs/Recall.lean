import Monkey.Proofs.Bindings
import Monkey.Proofs.Layout
import Monkey.Proofs.Parsed
import Monkey.Proofs.Sessions

/-!
# Sessions recall what was bound

Whatever a session has gone through, evaluating a single name gives the value that it was bound to
last, outside functions and since the last reset, in a text that passed parsing and compilation, also
when the run of that text failed later on. When such a text contains a binding of the name but none
was carried out, the name is a global that nothing was stored in, and without such a text it is no
variable at all (`Session.eval_name`).

`Session.past` is the account that the session is held against: the names that accepted texts bind
outside functions, and the bindings that their runs carried out. The invariant `Session.Recalls` ties
it to the scope and the globals. The names in scope are those of the account; the slot of a name holds
the value of its last binding; and a slot without a name is empty, so that a new name starts out
unbound.
-/

namespace Monkey

/-! ### The account of a session -/

/-- What was bound outside functions by the texts that were accepted since the last reset. -/
structure Past where
  /-- The names of all bindings in the texts. -/
  names : List String
  /-- The bindings that were carried out, the latest last. -/
  bindings : List (String × Value)

namespace Session

/-- The account after an action. -/
def noted (s : Session) (past : Past) : Action → Past
  | .reset => ⟨[], []⟩
  | .eval source =>
    match s.accepts? source with
    | none => past
    | some (p, c) =>
      { names := past.names ++ p.lets
        bindings := past.bindings ++
          (Machine.start c.chunk s.globals s.limits).bindings (p.marksOf c.chunk.code) s.steps }

/-- The account after actions, from a given one. -/
def pastFrom (s : Session) (past : Past) : List Action → Past
  | [] => past
  | a :: as => (s.act a).pastFrom (s.noted past a) as

/-- The account after actions, from a session in which nothing is known. -/
def past (limits : Limits) (steps : Nat) (actions : List Action) : Past :=
  (start limits steps).pastFrom ⟨[], []⟩ actions

end Session

/-! ### Names and their slots -/

theorem Program.mem_lets {p : Program} {x : String} : x ∈ p.lets ↔ Mark.bound x ∈ p.marks := by
  rw [lets, List.mem_filterMap]
  constructor
  · rintro ⟨mark, hmark, hname⟩
    cases mark with
    | bound y =>
      obtain rfl := Option.some.inj hname
      exact hmark
    | returned => cases hname
  · exact fun h => ⟨_, h, rfl⟩

namespace Piece

mutual

theorem Fits.each {start : Nat} (p : Piece) (h : p.Fits start) :
    p.Each fun op ns => ∃ bytes, op.encode ns = .ok bytes := by
  cases p with
  | op o ns => exact h
  | branch yes no => exact ⟨FitsAll.each yes h.1, FitsAll.each no h.2.1⟩
  | skip no => exact FitsAll.each no h.1
termination_by structural p

/-- All instructions of pieces that fit can be encoded. -/
theorem FitsAll.each {start : Nat} (ps : List Piece) (h : FitsAll start ps) :
    EachAll (fun op ns => ∃ bytes, op.encode ns = .ok bytes) ps := by
  cases ps with
  | nil => trivial
  | cons p ps => exact ⟨Fits.each p h.1, FitsAll.each ps h.2⟩
termination_by structural ps

end

end Piece

open Piece

/-- The slot of a name that a program binds can be an operand. -/
theorem Compiled.slot_lt {c : Compilation} {w w' : Walk} {cs : List Command} {marks : List Mark}
    (hc : Compiled c w w' cs) (h : w.Marked w' marks (Command.piecesAll cs)) {x : String} {slot : Nat}
    (hx : Mark.bound x ∈ marks) (hslot : w'.scope.globals.find? x = some slot) : slot < 65536 := by
  obtain ⟨i, hi, slot', hslot', hop, hoperands⟩ :=
    exists_of_forall₂ (h.done 0) hx
  obtain rfl := Option.some.inj (hslot.symm.trans hslot')
  rcases eachAll_instructions _ (FitsAll.each _ hc.fits) (List.mem_filter.mp hi).1 with
    hjump | ⟨bytes, hencode⟩
  · rw [hop] at hjump
    cases hjump
  · have hlt := Opcode.lt_of_encode hencode
    rwa [hoperands, List.headD_cons] at hlt

/-! ### The invariant -/

namespace Session

/-- The account is that of the session. -/
structure Recalls (s : Session) (past : Past) : Prop where
  sound : s.Sound
  /-- Every slot can be an operand. -/
  small : ∀ x i, s.scope.globals.find? x = some i → i < 65536
  names : ∀ x, (s.scope.globals.find? x).isSome ↔ x ∈ past.names
  values : ∀ x, valueOf s.scope.globals s.globals x = lastBound past.bindings x
  unnamed : ∀ i, (∀ x, s.scope.globals.find? x ≠ some i) → s.globals.getD i none = none

theorem recalls_start (limits : Limits) (steps : Nat) : (start limits steps).Recalls ⟨[], []⟩ where
  sound := sound_start limits steps
  small x i h := by simp [start, Scope.empty, Scope.globals] at h
  names x := by simp [start, Scope.empty, Scope.globals]
  values x := by simp [valueOf, start, Scope.empty, Scope.globals]
  unnamed i _ := by simp [start]

/-- The machine that is about to run an accepted text goes through its listing. -/
theorem Sound.lists {s : Session} (h : s.Sound) {c : Compilation} {w w' : Walk}
    {cs : List Command} (hw : (Compilation.resume s.scope s.constants).Follows w)
    (hc : Compiled c w w' cs) : (Machine.start c.chunk s.globals s.limits).Lists c.constants
      (instructionsAll 0 (Command.piecesAll cs)) where
  holds := by
    refine .start (hc.follows.constants_all fun f hf => hf) (fun v hv => ?_) s.limits
    exact (h.globals v hv).mono (fun f hf => hc.mem_constants hw hf) v
  frames := .main hc.within

/-- **An accepted text** keeps the account, whatever comes out of its run. -/
theorem Recalls.accept {s : Session} {past : Past} (h : s.Recalls past) {source : String}
    {p : Program} {c : Compilation} (haccepts : s.accepts? source = some (p, c)) :
    (s.act (.eval source)).Recalls (s.noted past (.eval source)) := by
  have hsound := h.sound.act (.eval source)
  obtain ⟨w, hw, hwsound, houter⟩ := h.sound.carried.follows
  obtain ⟨cs, w', hcs, hc⟩ := hw.compiled hwsound houter (accepts?_eq_some.mp haccepts).2
  have hscope : s.scope.globals = w.scope.globals := congrArg Scope.globals hw.scope
  have hscope' : c.scope.globals = w'.scope.globals := congrArg Scope.globals hc.follows.scope
  have hmarked : w.Marked w' p.marks (Command.piecesAll cs) := Stmt.markedAll p.statements houter hcs
  have hdense : w'.scope.globals.Dense := hc.walk.sound.dense.globals
  -- what the run does to the globals
  obtain ⟨hvalues, hunnamed⟩ := (h.sound.lists hw hc).run_bindings
    (fun f hf => hc.follows.function_listed hc.walk.sound hf) (hc.tells hcs houter) hdense s.steps
  have hgrows : ∀ x i, s.scope.globals.find? x = some i → w'.scope.globals.find? x = some i :=
    fun x i hi => hmarked.grows x i (hscope ▸ hi)
  -- a new name gets a slot that was empty
  have hbefore : ∀ x, valueOf w'.scope.globals (Machine.start c.chunk s.globals s.limits).globals x =
      lastBound past.bindings x := by
    intro x
    rw [← h.values x]
    unfold valueOf
    cases hx : s.scope.globals.find? x with
    | some i => simp only [hgrows x i hx, Option.bind_some, Machine.getD_globals_start]
    | none =>
      cases hx' : w'.scope.globals.find? x with
      | none => rfl
      | some j =>
        rw [Option.bind_some, Machine.getD_globals_start]
        refine h.unnamed j fun y hy => ?_
        obtain rfl := hdense.injective hx' (hgrows y j hy)
        rw [hx] at hy
        cases hy
  rw [act, eval_of_accepted haccepts] at hsound ⊢
  rw [noted, haccepts]
  refine ⟨hsound, fun x i hi => ?_, fun x => ?_, fun x => ?_, fun i hi => ?_⟩
  · rw [hscope'] at hi
    rcases (hmarked.names x).mp (by rw [hi]; rfl) with hold | hnew
    · obtain ⟨j, hj⟩ := Option.isSome_iff_exists.mp hold
      rw [← hscope] at hj
      obtain rfl := Option.some.inj ((hgrows x j hj).symm.trans hi)
      exact h.small x j hj
    · exact hc.slot_lt hmarked hnew hi
  · rw [hscope', hmarked.names, ← hscope, h.names, List.mem_append, Program.mem_lets]
  · rw [hscope', lastBound_append, ← hbefore]
    exact hvalues x
  · rw [hscope'] at hi
    have hnone := hunnamed i hi
    rw [Machine.getD_globals_start] at hnone
    exact hnone.trans (h.unnamed i fun x hx => hi x (hgrows x i hx))

/-- Every action keeps the account. -/
theorem Recalls.act {s : Session} {past : Past} (h : s.Recalls past) (a : Action) :
    (s.act a).Recalls (s.noted past a) := by
  cases a with
  | reset => exact recalls_start _ _
  | eval source =>
    cases haccepts : s.accepts? source with
    | some pc => exact h.accept haccepts
    | none =>
      rw [Session.act, (eval_of_rejected haccepts).1, noted, haccepts]
      exact h

/-- **The account of a session is right**, whatever it has gone through. -/
theorem recalls_past (limits : Limits) (steps : Nat) (actions : List Action) :
    (after limits steps actions).Recalls (past limits steps actions) := by
  unfold after past
  generalize hpast : (⟨[], []⟩ : Past) = past
  generalize hs : start limits steps = s
  have hrecalls : s.Recalls past := hs ▸ hpast ▸ recalls_start limits steps
  clear hs hpast
  induction actions generalizing s past with
  | nil => exact hrecalls
  | cons a actions ih => exact ih _ _ (hrecalls.act a)

end Session

/-! ### A text that fails between its bindings -/

/-- A token on the first line of a text. -/
def Token.onLine (kind : Kind) (literal : String) (start : Nat) : Token :=
  ⟨kind, literal, ⟨start, start + literal.length, 1, start + 1⟩⟩

/-- The program `let a = 3; let b = 1 / 0;`. -/
def Program.brokenOff : Program where
  statements :=
    [.bind (.onLine .let "let" 0) ⟨.onLine .ident "a" 4⟩ (.integer (.onLine .int "3" 8) 3),
      .bind (.onLine .let "let" 11) ⟨.onLine .ident "b" 15⟩ (.binary (.onLine .slash "/" 21) .divide
        (.integer (.onLine .int "1" 19) 1) (.integer (.onLine .int "0" 23) 0))]

/-- What the program compiles to when it is the first one. -/
def Compilation.brokenOff : Compilation :=
  ⟨#[.integer 3, .integer 1, .integer 0], .outermost (.add (.add .empty "a") "b"),
    ⟨#[0, 0, 0, 17, 0, 0, 0, 0, 1, 0, 0, 2, 5, 17, 0, 1], some ⟨.setGlobal, 13⟩, some ⟨.div, 12⟩⟩, []⟩

theorem Program.parse_brokenOff : parse "let a = 3; let b = 1 / 0;" = .ok .brokenOff := by
  have hscan : Token.scan "let a = 3; let b = 1 / 0;" =
      ([.onLine .let "let" 0, .onLine .ident "a" 4, .onLine .assign "=" 6, .onLine .int "3" 8,
        .onLine .semicolon ";" 9, .onLine .let "let" 11, .onLine .ident "b" 15,
        .onLine .assign "=" 17, .onLine .int "1" 19, .onLine .slash "/" 21, .onLine .int "0" 23,
        .onLine .semicolon ";" 24], .onLine .eof "" 25) := by
    decide +kernel
  unfold parse read
  rw [hscan]
  rfl

open Compiling in
theorem Compilation.add_brokenOff :
    (Compilation.resume .empty #[]).add .brokenOff = (.ok (), .brokenOff) := by
  have ha : (Numbering.add .empty "a").find? "a" = some 0 := Numbering.find?_add_empty "a"
  have hb : ((Numbering.add .empty "a").add "b").find? "b" = some 1 := by
    simp [Numbering.find?_add, Numbering.size_add]
  have hfirst : Gives (Stmt.bind (.onLine .let "let" 0) ⟨.onLine .ident "a" 4⟩
      (.integer (.onLine .int "3" 8) 3)).compile (.resume .empty #[]) ()
      ⟨#[.integer 3], .outermost (.add .empty "a"),
        ⟨#[0, 0, 0, 17, 0, 0], some ⟨.setGlobal, 3⟩, some ⟨.constant, 0⟩⟩, []⟩ :=
    gives_bind.mpr ⟨_, _, gives_define_of_slot ha (by decide), rfl⟩
  have hsecond : Gives (Stmt.bind (.onLine .let "let" 11) ⟨.onLine .ident "b" 15⟩
      (.binary (.onLine .slash "/" 21) .divide (.integer (.onLine .int "1" 19) 1)
        (.integer (.onLine .int "0" 23) 0))).compile
      ⟨#[.integer 3], .outermost (.add .empty "a"),
        ⟨#[0, 0, 0, 17, 0, 0], some ⟨.setGlobal, 3⟩, some ⟨.constant, 0⟩⟩, []⟩ () .brokenOff :=
    gives_bind.mpr ⟨_, _, gives_define_of_slot hb (by decide), rfl⟩
  exact gives_bind.mpr ⟨(), _, hfirst, gives_bind.mpr ⟨(), _, hsecond, rfl⟩⟩

namespace Machine

open Executing

/-- The machine on its way through the program: in the global slots, the value of `a`, none for `b`,
and `zs` for the names to come. -/
def brokenOff (ip sp : Nat) (slots : List Value) (a : Option Value) (zs : List (Option Value)) :
    Machine :=
  ⟨#[.integer 3, .integer 1, .integer 0], ⟨slots⟩, sp, ⟨a :: none :: zs⟩,
    #[{ mainFrame Compilation.brokenOff.chunk.code with ip }], 2⟩

theorem step_brokenOff {ip sp operand next : Nat} {slots : List Value} {a : Option Value}
    {zs : List (Option Value)} {op : Opcode} (hlt : ip < 16)
    (hfetch : Code.fetch Compilation.brokenOff.chunk.code ip = .ok (op, operand, next)) :
    (brokenOff ip sp slots a zs).step =
      (brokenOff ip sp slots a zs).attempt (.at op) ip (jump next >>= fun _ => execute op operand) := by
  have hframes : (brokenOff ip sp slots a zs).frames =
      Array.push #[] { mainFrame Compilation.brokenOff.chunk.code with ip } := rfl
  exact step_instruction hframes hlt hfetch

/-- The run binds `a` before it fails. -/
theorem bindings_brokenOff (zs : List (Option Value)) (n : Nat) :
    bindings [(3, .bound "a"), (13, .bound "b")] (n + 5)
      (brokenOff 0 0 [.null, .null, .null, .null] none zs) = [("a", .integer 3)] := by
  have h₁ : (brokenOff 0 0 [.null, .null, .null, .null] none zs).step =
      (none, brokenOff 3 1 [.integer 3, .null, .null, .null] none zs) :=
    (step_brokenOff (by decide) rfl).trans rfl
  have h₂ : (brokenOff 3 1 [.integer 3, .null, .null, .null] none zs).step =
      (none, brokenOff 6 0 [.integer 3, .null, .null, .null] (some (.integer 3)) zs) :=
    (step_brokenOff (by decide) rfl).trans rfl
  have h₃ : (brokenOff 6 0 [.integer 3, .null, .null, .null] (some (.integer 3)) zs).step =
      (none, brokenOff 9 1 [.integer 1, .null, .null, .null] (some (.integer 3)) zs) :=
    (step_brokenOff (by decide) rfl).trans rfl
  have h₄ : (brokenOff 9 1 [.integer 1, .null, .null, .null] (some (.integer 3)) zs).step =
      (none, brokenOff 12 2 [.integer 1, .integer 0, .null, .null] (some (.integer 3)) zs) :=
    (step_brokenOff (by decide) rfl).trans rfl
  obtain ⟨m, h₅⟩ : ∃ m,
      (brokenOff 12 2 [.integer 1, .integer 0, .null, .null] (some (.integer 3)) zs).step =
        (some (.failed ⟨.divisionByZero, .at .div, 12⟩), m) :=
    ⟨_, (step_brokenOff (by decide) rfl).trans rfl⟩
  simp only [bindings, h₁, h₂, h₃, h₄, h₅]
  rfl

end Machine

/-- The text announces two names, and binds the first. -/
theorem Session.past_brokenOff :
    past ⟨4, 65536, 2⟩ 100 [.eval "let a = 3; let b = 1 / 0;"] =
      ⟨["a", "b"], [("a", .integer 3)]⟩ := by
  have haccepts : (start ⟨4, 65536, 2⟩ 100).accepts? "let a = 3; let b = 1 / 0;" =
      some (.brokenOff, .brokenOff) :=
    accepts?_eq_some.mpr ⟨Program.parse_brokenOff, Compilation.add_brokenOff⟩
  have htable : Program.brokenOff.marksOf Compilation.brokenOff.chunk.code =
      [(3, .bound "a"), (13, .bound "b")] := by
    decide +kernel
  have hstart : Machine.start Compilation.brokenOff.chunk #[] ⟨4, 65536, 2⟩ =
      .brokenOff 0 0 [.null, .null, .null, .null] none (List.replicate 65534 none) := by
    rw [Machine.start, Array.empty_append]
    rfl
  have hbindings := Machine.bindings_brokenOff (List.replicate 65534 none) 95
  rw [← htable, ← hstart] at hbindings
  rw [past, pastFrom, pastFrom, noted, haccepts]
  dsimp only
  rw [List.nil_append, List.nil_append]
  exact congrArg (Past.mk ["a", "b"]) hbindings

/-! ### Evaluating a name -/

/-- The program that is a single name. -/
def Program.bare (t : Token) : Program := ⟨[.expr t (.name ⟨t⟩)]⟩

/-- A text that is a single name, without a semicolon. -/
theorem Program.parse_name {x : String} (hx : IsName x) :
    ∃ span, Program.parse x = .ok (.bare ⟨.ident, x, span⟩) := by
  have hproper : ∀ w ∈ [(⟨.ident, x⟩ : Word)], w.Proper := List.forall_mem_singleton.mpr hx
  have hwords := Token.scan_spaced hproper
  have heof := Token.kind_scan_snd x
  have htext : Word.spaced [⟨.ident, x⟩] = x.toList := by simp [Word.spaced, Word.text]
  rw [htext, String.ofList_toList] at hwords
  unfold parse read
  generalize Token.scan x = scan at hwords heof ⊢
  obtain ⟨ts, kind, literal, span⟩ := scan
  obtain rfl : kind = .eof := heof
  obtain ⟨t, rfl, ht⟩ := List.map_eq_singleton_iff.mp hwords
  obtain ⟨kind, name, span'⟩ := t
  obtain ⟨rfl, rfl⟩ := Word.mk.inj ht
  -- the tokens are known up to their spans, so that reading them is a computation
  exact ⟨span', rfl⟩

/-- A name that nothing binds does not compile. -/
theorem Compilation.add_unbound {c : Compilation} {t : Token}
    (h : c.scope.resolve t.literal = none) :
    c.add (.bare t) = (.error (.undefinedVariable t.literal t.span), c) := by
  have hload : (Compiling.load ⟨t⟩).run.run c =
      (.error (.undefinedVariable t.literal t.span), c) := by
    have hget : (get : Compiling Compilation).run.run c = (.ok c, c) := rfl
    rw [Compiling.load, run_bind, hget]
    simp only [Ident.name, h]
    rfl
  have hname : ((Expr.name ⟨t⟩).compile).run.run c = (Compiling.load ⟨t⟩).run.run c := rfl
  rw [add, Program.bare, Stmt.compileAll, run_bind, Stmt.compile, run_bind, hname, hload]

/-- A global name compiles to two instructions. -/
theorem Compilation.add_global {c : Compilation} {t : Token} {slot : Nat}
    (h : c.scope.resolve t.literal = some ⟨t.literal, .global, slot⟩) (hslot : slot < 65536) :
    ∃ c', c.add (.bare t) = (.ok (), c') := by
  have hget : Opcode.getGlobal.encode [slot] = .ok (Opcode.getGlobal.byte :: bigEndian 2 slot) :=
    Opcode.encode_singleton rfl (by omega)
  let c₁ : Compilation :=
    { c with buffer := c.buffer.append .getGlobal (Opcode.getGlobal.byte :: bigEndian 2 slot) }
  have hload : Compiling.Gives (Compiling.load ⟨t⟩) c () c₁ :=
    Compiling.gives_load.mpr ⟨_, h, Compiling.gives_emit.mpr ⟨_, hget, rfl⟩⟩
  have hpop : Compiling.Gives (Compiling.emit .pop []) c₁ ()
      { c₁ with buffer := c₁.buffer.append .pop [Opcode.pop.byte] } :=
    Compiling.gives_emit.mpr ⟨_, rfl, rfl⟩
  have hstatement : Compiling.Gives (Stmt.compile (.expr t (.name ⟨t⟩))) c () _ :=
    Compiling.gives_bind.mpr ⟨(), c₁, hload, hpop⟩
  exact ⟨_, Compiling.gives_bind.mpr ⟨(), _, hstatement, Compiling.gives_pure.mpr ⟨rfl, rfl⟩⟩⟩

/-- The pieces of a global name. -/
theorem Program.pieces_bare {t : Token} {w w' : Walk} {cs : List Command} {slot : Nat}
    (hcs : Stmt.resolveAll (bare t).statements w = some (cs, w'))
    (hslot : w.scope.resolve t.literal = some ⟨t.literal, .global, slot⟩) :
    Command.piecesAll cs = [.op .getGlobal [slot], .op .pop []] := by
  obtain ⟨cs₁, w₁, hcs₁, cs₂, hcs₂, rfl⟩ := Stmt.resolveAll_cons.mp hcs
  obtain ⟨term, hterm, rfl⟩ := Stmt.resolve_expr.mp hcs₁
  obtain ⟨rfl, rfl⟩ := Stmt.resolveAll_nil.mp hcs₂
  obtain ⟨symbol, hsymbol, rfl, rfl⟩ := Expr.resolve_name.mp hterm
  obtain rfl := Option.some.inj (hslot.symm.trans hsymbol)
  rfl

namespace Machine

variable {m : Machine}

/-- A run is a step and the run after it. -/
theorem run_of_steps {P : Outcome → Machine → Prop} {n : Nat}
    (h : m.Steps (fun m' => P (m'.run n).1 (m'.run n).2)
      (fun e m' => ∀ site ip, P (.failed ⟨e, site, ip⟩) m') (P .finished)) :
    P (m.run (n + 1)).1 (m.run (n + 1)).2 := by
  unfold Steps at h
  rw [run]
  split at h
  · next heq => rwa [heq]
  · next e m' heq =>
    rw [heq]
    exact h e.site e.ip
  · next heq => rwa [heq]
  · exact h.elim

/-- What comes of reading a global slot. -/
def Reads (globals : Array (Option Value)) (slot : Nat) (outcome : Outcome) (m : Machine) : Prop :=
  match globals.getD slot none with
  | some v => outcome.result m = .ok v
  | none => ∃ e, outcome.result m = .error (.runtime e) ∧ e.fault = .unresolvedGlobal slot

/-- The code of a global name pushes what its slot holds, and drops it again. -/
theorem run_global {f : Frame} {slot n : Nat} (hframes : m.frames = Array.push #[] f)
    (hcode : Code.Remaining f.function.code f.ip [.op .getGlobal [slot], .op .pop []])
    (hsp : m.sp = 0) (hstack : 0 < m.stack.size) (hslot : slot < m.globals.size) :
    Reads m.globals slot (m.run (n + 3)).1 (m.run (n + 3)).2 := by
  obtain ⟨hlt, hfetch, hpop⟩ := hcode.op
  refine run_of_steps ((steps_instruction hframes hlt hfetch).mpr ?_)
  rw [Executing.execute, Executing.ensures_bind, Executing.ensures_get]
  have hget : m.globals[slot]? = some (m.globals.getD slot none) := by
    simp [hslot]
  dsimp only [List.headD_cons]
  rw [hget]
  cases hvalue : m.globals.getD slot none with
  | none =>
    intro site ip
    unfold Reads
    rw [hvalue]
    exact ⟨_, rfl, rfl⟩
  | some v =>
    dsimp only
    rw [Executing.ensures_push, if_pos (hsp ▸ hstack)]
    obtain ⟨hlt', hfetch', hend⟩ := hpop.op
    refine run_of_steps ((steps_instruction rfl hlt' hfetch').mpr ?_)
    rw [Executing.execute, Executing.ensures_bind, Executing.ensures_pop, if_neg (Nat.succ_ne_zero _),
      Executing.ensures_pure]
    refine run_of_steps ?_
    refine (steps_end rfl hend.size_le).mpr ?_
    rw [if_pos Array.size_empty]
    unfold Reads
    rw [hvalue]
    simp [Outcome.result, lastPopped, hsp, hstack]

end Machine

namespace Session

/-- A name that is not in scope does not compile. -/
theorem eval_unknown {s : Session} (houter : s.scope.locals? = none) {x : String} (hx : IsName x)
    (hfind : s.scope.globals.find? x = none) :
    ∃ span, (s.eval x).1 = .error (.compile (.undefinedVariable x span)) := by
  obtain ⟨span, hparse⟩ := Program.parse_name hx
  have hresolve : s.scope.resolve x = none := by
    rw [Scope.resolve_of_outermost houter, hfind, Option.map_none]
  have hadd : (Compilation.resume s.scope s.constants).add (.bare ⟨.ident, x, span⟩) =
      (.error (.undefinedVariable x span), _) := Compilation.add_unbound hresolve
  refine ⟨span, ?_⟩
  simp only [Session.eval, hparse, hadd]

/-- A name that is in scope gives what its slot holds. -/
theorem Sound.eval_known {s : Session} (h : s.Sound) (hglobals : s.limits.globalsSize = 65536)
    (hstack : 1 ≤ s.limits.stackSize) (hsteps : 3 ≤ s.steps) {x : String} (hx : IsName x) {i : Nat}
    (hfind : s.scope.globals.find? x = some i) (hlt : i < 65536) :
    (∀ v, s.globals.getD i none = some v → (s.eval x).1 = .ok v) ∧
    (s.globals.getD i none = none →
      ∃ e, (s.eval x).1 = .error (.runtime e) ∧ e.fault = .unresolvedGlobal i) := by
  obtain ⟨span, hparse⟩ := Program.parse_name hx
  obtain ⟨w, hw, hwsound, houter⟩ := h.carried.follows
  have hscope : s.scope = w.scope := hw.scope
  have hresolve : s.scope.resolve x = some ⟨x, .global, i⟩ := by
    rw [Scope.resolve_of_outermost (hscope ▸ houter), hfind, Option.map_some]
  obtain ⟨c, hadd⟩ : ∃ c, (Compilation.resume s.scope s.constants).add
      (.bare ⟨.ident, x, span⟩) = (.ok (), c) := Compilation.add_global hresolve hlt
  have haccepts : s.accepts? x = some (.bare ⟨.ident, x, span⟩, c) :=
    accepts?_eq_some.mpr ⟨hparse, hadd⟩
  -- the code is that of the name
  obtain ⟨cs, w', hcs, hc⟩ := hw.compiled hwsound houter hadd
  have hcode : Code.Remaining (Machine.mainFrame c.chunk.code).function.code 0
      [.op .getGlobal [i], .op .pop []] := by
    rw [← Program.pieces_bare hcs (hscope ▸ hresolve)]
    exact ⟨hc.code, hc.fits⟩
  have hsize : i < (Machine.start c.chunk s.globals s.limits).globals.size := by
    simp only [Machine.start, Array.size_append, Array.size_replicate]
    omega
  have hstack' : 0 < (Machine.start c.chunk s.globals s.limits).stack.size := by
    rwa [Machine.start, Array.size_replicate]
  -- three steps are enough: two instructions, and the end of the code
  have hrun := Machine.run_global (n := s.steps - 3) (m := Machine.start c.chunk s.globals s.limits)
    rfl hcode rfl hstack' hsize
  rw [Nat.sub_add_cancel hsteps, Machine.Reads, Machine.getD_globals_start] at hrun
  rw [eval_of_accepted haccepts]
  constructor
  · intro v hv
    rw [hv] at hrun
    exact hrun
  · intro hnone
    rw [hnone] at hrun
    exact hrun

/-- What a single name evaluates to is written in the account. -/
theorem Recalls.eval_bare {s : Session} {past : Past} (h : s.Recalls past)
    (hglobals : s.limits.globalsSize = 65536) (hstack : 1 ≤ s.limits.stackSize)
    (hsteps : 3 ≤ s.steps) {x : String} (hx : IsName x) :
    (∀ v, lastBound past.bindings x = some v → (s.eval x).1 = .ok v) ∧
    (lastBound past.bindings x = none → x ∈ past.names →
      ∃ e slot, (s.eval x).1 = .error (.runtime e) ∧ e.fault = .unresolvedGlobal slot) ∧
    (x ∉ past.names → ∃ span, (s.eval x).1 = .error (.compile (.undefinedVariable x span))) := by
  rw [← h.values x, ← h.names x, valueOf]
  cases hfind : s.scope.globals.find? x with
  | none =>
    obtain ⟨w, hw, -, houter⟩ := h.sound.carried.follows
    have hscope : s.scope = w.scope := hw.scope
    refine ⟨?_, ?_, fun _ => eval_unknown (hscope ▸ houter) hx hfind⟩
    · intro v hv
      cases hv
    · intro _ hsome
      cases hsome
  | some i =>
    obtain ⟨hbound, hunbound⟩ :=
      h.sound.eval_known hglobals hstack hsteps hx hfind (h.small x i hfind)
    refine ⟨hbound, fun hnone _ => ?_, fun hnot => absurd rfl hnot⟩
    obtain ⟨e, hresult, hfault⟩ := hunbound hnone
    exact ⟨e, i, hresult, hfault⟩

@[simp] theorem steps_act (s : Session) (a : Action) : (s.act a).steps = s.steps := by
  cases a with
  | reset => rfl
  | eval source =>
    cases haccepts : s.accepts? source with
    | none => rw [act, (eval_of_rejected haccepts).1]
    | some pc => rw [act, eval_of_accepted haccepts]

theorem steps_after (limits : Limits) (steps : Nat) (actions : List Action) :
    (after limits steps actions).steps = steps := by
  have hact : ∀ (s : Session) a, s.steps = steps → (s.act a).steps = steps := by
    intro s a h
    rw [steps_act, h]
  exact after_of_act (P := fun s => s.steps = steps) rfl hact actions

/-- **The session recalls exactly what was carried out.** After whatever it went through, a name gives
the value of its last binding since the last reset; a name that was only announced, by a binding that
was not carried out, gives a fault; and a name without a binding does not compile. -/
theorem eval_name (limits : Limits) (steps : Nat) (actions : List Action) (x : String)
    (hglobals : limits.globalsSize = 65536) (hstack : 1 ≤ limits.stackSize) (hsteps : 3 ≤ steps)
    (hx : IsName x) :
    let past := past limits steps actions
    let result := ((after limits steps actions).eval x).1
    (∀ v, lastBound past.bindings x = some v → result = .ok v) ∧
    (lastBound past.bindings x = none → x ∈ past.names →
      ∃ e slot, result = .error (.runtime e) ∧ e.fault = .unresolvedGlobal slot) ∧
    (x ∉ past.names → ∃ span, result = .error (.compile (.undefinedVariable x span))) := by
  have hlimits : (after limits steps actions).limits = limits :=
    (sound_after limits steps actions).2
  refine (recalls_past limits steps actions).eval_bare ?_ ?_ ?_ hx
  · rw [hlimits, hglobals]
  · rwa [hlimits]
  · rwa [steps_after]

/-- A text that binds `a`, and fails before it binds `b`. In a session without a binding, `a` is no
variable either. -/
theorem eval_name_brokenOff : IsName "a" ∧ IsName "b" ∧ IsName "c" ∧
    ((after ⟨4, 65536, 2⟩ 100 [.eval "let a = 3; let b = 1 / 0;"]).eval "a").1 = .ok (.integer 3) ∧
    (∃ e slot, ((after ⟨4, 65536, 2⟩ 100 [.eval "let a = 3; let b = 1 / 0;"]).eval "b").1 =
      .error (.runtime e) ∧ e.fault = .unresolvedGlobal slot) ∧
    (∃ span, ((after ⟨4, 65536, 2⟩ 100 [.eval "let a = 3; let b = 1 / 0;"]).eval "c").1 =
      .error (.compile (.undefinedVariable "c" span))) ∧
    ∃ span, ((after ⟨4, 65536, 2⟩ 100 [.eval "1/0;", .eval "]", .eval "2;"]).eval "a").1 =
      .error (.compile (.undefinedVariable "a" span)) := by
  have ha : IsName "a" := ⟨⟨'a', [], rfl, rfl, List.forall_mem_nil _⟩, rfl⟩
  have hb : IsName "b" := ⟨⟨'b', [], rfl, rfl, List.forall_mem_nil _⟩, rfl⟩
  have hc : IsName "c" := ⟨⟨'c', [], rfl, rfl, List.forall_mem_nil _⟩, rfl⟩
  obtain ⟨hbound, -⟩ := eval_name ⟨4, 65536, 2⟩ 100 [.eval "let a = 3; let b = 1 / 0;"] "a"
    rfl (by decide) (by decide) ha
  obtain ⟨-, hfault, -⟩ := eval_name ⟨4, 65536, 2⟩ 100 [.eval "let a = 3; let b = 1 / 0;"] "b"
    rfl (by decide) (by decide) hb
  obtain ⟨-, -, hunbound⟩ := eval_name ⟨4, 65536, 2⟩ 100 [.eval "let a = 3; let b = 1 / 0;"] "c"
    rfl (by decide) (by decide) hc
  rw [past_brokenOff] at hbound hfault hunbound
  -- a session without a binding
  have hnames : "a" ∉ (past ⟨4, 65536, 2⟩ 100 [.eval "1/0;", .eval "]", .eval "2;"]).names := by
    decide +kernel
  obtain ⟨-, -, hnone⟩ := eval_name ⟨4, 65536, 2⟩ 100 [.eval "1/0;", .eval "]", .eval "2;"] "a"
    rfl (by decide) (by decide) ha
  exact ⟨ha, hb, hc, hbound _ rfl, hfault (by decide) (by decide), hunbound (by decide), hnone hnames⟩

end Session

end Monkey
