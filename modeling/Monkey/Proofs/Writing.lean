import Monkey.Proofs.Scanning

/-!
# Writing programs

`Program.shape` is a program without what it keeps of its source: two programs of one shape have the
same structure, operators, names and literal values.

Every program that can be written at all (`Program.Writable`) has words that spell it
(`Stmt.exists_spelledAll`), and only those do (`Stmt.SpelledAll.writable`). The words that spell a
program are proper ones, which a text can contain (`Stmt.SpelledAll.proper`).
-/

namespace Monkey

/-! ### Shapes -/

/-- The name at no particular place. -/
def Ident.bare (id : Ident) : Ident := ⟨⟨.ident, id.name, default⟩⟩

mutual

/-- The expression without its tokens. -/
def Expr.shape : Expr → Expr
  | .name id => .name id.bare
  | .integer _ n => .integer default n
  | .boolean _ b => .boolean default b
  | .string _ s => .string default s
  | .unary _ op e => .unary default op e.shape
  | .binary _ op l r => .binary default op l.shape r.shape
  | .cond _ c yes none => .cond default c.shape yes.shape none
  | .cond _ c yes (some no) => .cond default c.shape yes.shape (some no.shape)
  | .function _ ps body => .function default (ps.map Ident.bare) body.shape
  | .call _ f es => .call default f.shape (Expr.shapeAll es)
  | .array _ es => .array default (Expr.shapeAll es)
  | .hash _ ps => .hash default (Expr.shapePairs ps)
  | .index _ e i => .index default e.shape i.shape
termination_by structural e => e

/-- Several expressions without their tokens. -/
def Expr.shapeAll : List Expr → List Expr
  | [] => []
  | e :: es => e.shape :: Expr.shapeAll es
termination_by structural es => es

/-- The entries of a hash literal without their tokens. -/
def Expr.shapePairs : List (Expr × Expr) → List (Expr × Expr)
  | [] => []
  | (k, v) :: ps => (k.shape, v.shape) :: Expr.shapePairs ps
termination_by structural ps => ps

/-- The block without its tokens. -/
def Block.shape : Block → Block
  | .mk _ ss => .mk default (Stmt.shapeAll ss)
termination_by structural b => b

/-- The statement without its tokens. -/
def Stmt.shape : Stmt → Stmt
  | .bind _ id e => .bind default id.bare e.shape
  | .ret _ e => .ret default e.shape
  | .expr _ e => .expr default e.shape
  | .block b => .block b.shape
termination_by structural s => s

/-- Several statements without their tokens. -/
def Stmt.shapeAll : List Stmt → List Stmt
  | [] => []
  | s :: ss => s.shape :: Stmt.shapeAll ss
termination_by structural ss => ss

end

/-- The program without its tokens. -/
def Program.shape (p : Program) : Program := ⟨Stmt.shapeAll p.statements⟩

theorem Expr.shapeAll_eq_map (es : List Expr) : shapeAll es = es.map shape := by
  induction es with
  | nil => rfl
  | cons e es ih => rw [shapeAll, ih, List.map_cons]

theorem Expr.shapePairs_eq_map (ps : List (Expr × Expr)) :
    shapePairs ps = ps.map fun p => (p.1.shape, p.2.shape) := by
  induction ps with
  | nil => rfl
  | cons p ps ih => rw [shapePairs, ih, List.map_cons]

theorem Stmt.shapeAll_eq_map (ss : List Stmt) : shapeAll ss = ss.map shape := by
  induction ss with
  | nil => rfl
  | cons s ss ih => rw [shapeAll, ih, List.map_cons]

/-! ### What can be written -/

mutual

/-- There is source text for the expression: its names are names, its integers are not negative, and
no string contains a quote. -/
def Expr.Writable : Expr → Prop
  | .name id => IsName id.name
  | .integer _ n => 0 ≤ n
  | .boolean _ _ => True
  | .string _ s => '"' ∉ s.toList
  | .unary _ _ e => e.Writable
  | .binary _ _ l r => l.Writable ∧ r.Writable
  | .cond _ c yes none => c.Writable ∧ yes.Writable
  | .cond _ c yes (some no) => c.Writable ∧ yes.Writable ∧ no.Writable
  | .function _ ps body => (∀ id ∈ ps, IsName id.name) ∧ body.Writable
  | .call _ f es => f.Writable ∧ Expr.WritableAll es
  | .array _ es => Expr.WritableAll es
  | .hash _ ps => Expr.WritablePairs ps
  | .index _ e i => e.Writable ∧ i.Writable
termination_by structural e => e

/-- There is source text for all expressions. -/
def Expr.WritableAll : List Expr → Prop
  | [] => True
  | e :: es => e.Writable ∧ Expr.WritableAll es
termination_by structural es => es

/-- There is source text for all entries of a hash literal. -/
def Expr.WritablePairs : List (Expr × Expr) → Prop
  | [] => True
  | (k, v) :: ps => k.Writable ∧ v.Writable ∧ Expr.WritablePairs ps
termination_by structural ps => ps

/-- There is source text for the block. -/
def Block.Writable : Block → Prop
  | .mk _ ss => Stmt.WritableAll ss
termination_by structural b => b

/-- There is source text for the statement, which is not a block. -/
def Stmt.Writable : Stmt → Prop
  | .bind _ id e => IsName id.name ∧ e.Writable
  | .ret _ e => e.Writable
  | .expr _ e => e.Writable
  | .block _ => False
termination_by structural s => s

/-- There is source text for all statements. -/
def Stmt.WritableAll : List Stmt → Prop
  | [] => True
  | s :: ss => s.Writable ∧ Stmt.WritableAll ss
termination_by structural ss => ss

end

/-- There is source text for the program. -/
def Program.Writable (p : Program) : Prop := Stmt.WritableAll p.statements

/-! ### Every writable program has words -/

/-- In a pair of parentheses everything may stand everywhere. -/
theorem Enclosed.exists_of {free : Prop} {P : List Word → Prop} (h : ∃ us, P us) :
    ∃ us, Enclosed free P us := by
  obtain ⟨us, hus⟩ := h
  exact ⟨_, (Enclosed.bare trivial hus).parens⟩

/-- Every integer that is not negative has a literal. -/
theorem exists_integer? {n : Int64} (hn : 0 ≤ n) : ∃ literal, integer? literal = some n := by
  refine ⟨String.ofList (Nat.toDigits 10 n.toNatClampNeg), ?_⟩
  have hdecimal : decimal (Nat.toDigits 10 n.toNatClampNeg) = n.toNatClampNeg :=
    Nat.ofDigitChars_toDigits (by decide) (by decide)
  have hdigits : (Nat.toDigits 10 n.toNatClampNeg).all Char.isDigit = true := by
    rw [List.all_eq_true]
    exact fun c hc => Nat.isDigit_of_mem_toDigits (by decide) (by decide) hc
  have hmax : n.toNatClampNeg ≤ maxInteger := Nat.le_of_lt_succ n.toNatClampNeg_lt
  unfold integer?
  dsimp only
  rw [String.toList_ofList, hdecimal, if_pos ⟨Nat.toDigits_ne_nil, hdigits, hmax⟩,
    Int64.ofNat_toNatClampNeg n hn]

mutual

theorem Expr.exists_spelled (e : Expr) (h : e.Writable) : ∃ us, e.Spelled false us := by
  match e, h with
  | .name id, h => exact ⟨[id.word], h, rfl⟩
  | .integer t n, h =>
    obtain ⟨literal, hliteral⟩ := exists_integer? h
    exact ⟨_, literal, hliteral, nofun, rfl⟩
  | .boolean _ b, _ => exact ⟨_, rfl⟩
  | .string _ s, h => exact ⟨_, h, rfl⟩
  | .unary _ op e, h =>
    obtain ⟨us, hus⟩ := Enclosed.exists_of (Expr.exists_spelled e h)
    exact ⟨_, us, hus, rfl⟩
  | .binary _ op l r, h =>
    obtain ⟨us, hus⟩ := Enclosed.exists_of (Expr.exists_spelled l h.1)
    obtain ⟨vs, hvs⟩ := Enclosed.exists_of (Expr.exists_spelled r h.2)
    exact ⟨_, us, vs, hus, hvs, rfl⟩
  | .cond _ c yes none, h =>
    obtain ⟨us, hus⟩ := Enclosed.exists_of (Expr.exists_spelled c h.1)
    obtain ⟨vs, hvs⟩ := Block.exists_spelled yes h.2
    exact ⟨_, us, vs, hus, hvs, rfl⟩
  | .cond _ c yes (some no), h =>
    obtain ⟨us, hus⟩ := Enclosed.exists_of (Expr.exists_spelled c h.1)
    obtain ⟨vs, hvs⟩ := Block.exists_spelled yes h.2.1
    obtain ⟨vs', hvs'⟩ := Block.exists_spelled no h.2.2
    exact ⟨_, us, vs, vs', hus, hvs, hvs', rfl⟩
  | .function _ ps body, h =>
    obtain ⟨us, hus⟩ := Block.exists_spelled body h.2
    exact ⟨_, us, h.1, hus, rfl⟩
  | .call _ f es, h =>
    obtain ⟨us, hus⟩ := Enclosed.exists_of (Expr.exists_spelled f h.1)
    obtain ⟨vs, hvs⟩ := Expr.exists_spelledAll es h.2
    exact ⟨_, us, vs, hus, hvs, rfl⟩
  | .array _ es, h =>
    obtain ⟨us, hus⟩ := Expr.exists_spelledAll es h
    exact ⟨_, us, hus, rfl⟩
  | .hash _ ps, h =>
    obtain ⟨us, hus⟩ := Expr.exists_spelledPairs ps h
    exact ⟨_, us, hus, rfl⟩
  | .index _ e i, h =>
    obtain ⟨us, hus⟩ := Enclosed.exists_of (Expr.exists_spelled e h.1)
    obtain ⟨vs, hvs⟩ := Enclosed.exists_of (Expr.exists_spelled i h.2)
    exact ⟨_, us, vs, hus, hvs, rfl⟩
termination_by structural e

theorem Expr.exists_spelledAll (es : List Expr) (h : Expr.WritableAll es) :
    ∃ us, Expr.SpelledAll false es us := by
  match es, h with
  | [], _ => exact ⟨[], rfl⟩
  | e :: es, h =>
    obtain ⟨us, hus⟩ := Enclosed.exists_of (Expr.exists_spelled e h.1)
    obtain ⟨vs, hvs⟩ := Expr.exists_spelledRest es h.2
    exact ⟨_, us, vs, hus, hvs, rfl⟩
termination_by structural es

theorem Expr.exists_spelledRest (es : List Expr) (h : Expr.WritableAll es) :
    ∃ us, Expr.SpelledRest false es us := by
  match es, h with
  | [], _ => exact ⟨[], rfl⟩
  | e :: es, h =>
    obtain ⟨us, hus⟩ := Enclosed.exists_of (Expr.exists_spelled e h.1)
    obtain ⟨vs, hvs⟩ := Expr.exists_spelledRest es h.2
    exact ⟨_, us, vs, hus, hvs, rfl⟩
termination_by structural es

theorem Expr.exists_spelledPairs (ps : List (Expr × Expr)) (h : Expr.WritablePairs ps) :
    ∃ us, Expr.SpelledPairs false ps us := by
  match ps, h with
  | [], _ => exact ⟨[], rfl⟩
  | (k, v) :: ps, h =>
    obtain ⟨us, hus⟩ := Enclosed.exists_of (Expr.exists_spelled k h.1)
    obtain ⟨vs, hvs⟩ := Enclosed.exists_of (Expr.exists_spelled v h.2.1)
    obtain ⟨rest, hrest⟩ := Expr.exists_spelledPairs ps h.2.2
    exact ⟨_, us, vs, [Kind.comma.word], rest, hus, hvs, .inl rfl, hrest, rfl⟩
termination_by structural ps

theorem Block.exists_spelled (b : Block) (h : b.Writable) : ∃ us, b.Spelled false us := by
  match b, h with
  | .mk _ ss, h =>
    obtain ⟨us, hus⟩ := Stmt.exists_spelledAll ss h
    exact ⟨_, us, hus, rfl⟩
termination_by structural b

theorem Stmt.exists_spelled (s : Stmt) (h : s.Writable) : ∃ us, s.Spelled false us := by
  match s, h with
  | .bind _ id e, h =>
    obtain ⟨us, hus⟩ := Enclosed.exists_of (Expr.exists_spelled e h.2)
    exact ⟨_, us, _, h.1, hus, .inl rfl, rfl⟩
  | .ret _ e, h =>
    obtain ⟨us, hus⟩ := Enclosed.exists_of (Expr.exists_spelled e h)
    exact ⟨_, us, _, hus, .inl rfl, rfl⟩
  | .expr _ e, h =>
    obtain ⟨us, hus⟩ := Enclosed.exists_of (Expr.exists_spelled e h)
    exact ⟨_, us, _, hus, .inl rfl, rfl⟩
  | .block _, h => exact h.elim
termination_by structural s

theorem Stmt.exists_spelledAll (ss : List Stmt) (h : Stmt.WritableAll ss) :
    ∃ us, Stmt.SpelledAll false ss us := by
  match ss, h with
  | [], _ => exact ⟨[], rfl⟩
  | s :: ss, h =>
    obtain ⟨us, hus⟩ := Stmt.exists_spelled s h.1
    obtain ⟨vs, hvs⟩ := Stmt.exists_spelledAll ss h.2
    exact ⟨_, us, vs, hus, hvs, rfl⟩
termination_by structural ss

end

/-! ### The words of a program are proper -/

section

variable {lax : Bool}

theorem Enclosed.proper {free : Prop} {P : List Word → Prop} {ws : List Word}
    (h : Enclosed free P ws) (hP : ∀ us, P us → ∀ w ∈ us, w.Proper) : ∀ w ∈ ws, w.Proper := by
  obtain ⟨n, us, hus, -, rfl⟩ := h
  intro w hw
  simp only [List.mem_append, List.mem_replicate] at hw
  rcases hw with ⟨-, rfl⟩ | hw | ⟨-, rfl⟩
  · exact Kind.proper_word rfl
  · exact hP us hus w hw
  · exact Kind.proper_word rfl

theorem proper_parameterWords {ps : List Ident} (h : ∀ id ∈ ps, IsName id.name) :
    ∀ w ∈ parameterWords ps, w.Proper := by
  intro w hw
  cases ps with
  | nil => exact absurd hw List.not_mem_nil
  | cons id ids =>
    rw [List.forall_mem_cons] at h
    simp only [parameterWords, List.mem_cons, List.mem_flatMap, List.not_mem_nil, or_false] at hw
    rcases hw with rfl | ⟨id', hid', rfl | rfl⟩
    · exact h.1
    · exact Kind.proper_word rfl
    · exact h.2 id' hid'

theorem integer?_eq_some {literal : String} {n : Int64} (h : integer? literal = some n) :
    Word.Proper ⟨.int, literal⟩ := by
  unfold integer? at h
  dsimp only at h
  split at h
  · next hdigits => exact ⟨hdigits.1, List.all_eq_true.mp hdigits.2.1⟩
  · cases h

theorem Ended.proper {ws : List Word} (h : Ended lax ws) : ∀ w ∈ ws, w.Proper := by
  rcases h with rfl | ⟨-, rfl⟩
  · exact List.forall_mem_singleton.mpr (Kind.proper_word rfl)
  · exact List.forall_mem_nil _

mutual

theorem Expr.Spelled.proper (e : Expr) {ws : List Word} (h : e.Spelled lax ws) :
    ∀ w ∈ ws, w.Proper := by
  match e, h with
  | .name id, ⟨hname, hws⟩ =>
    subst hws
    exact List.forall_mem_singleton.mpr hname
  | .integer _ n, ⟨literal, hliteral, _, hws⟩ =>
    subst hws
    exact List.forall_mem_singleton.mpr (integer?_eq_some hliteral)
  | .boolean _ b, h =>
    obtain rfl : ws = [(if b then Kind.true else Kind.false).word] := h
    exact List.forall_mem_singleton.mpr (Kind.proper_word (by cases b <;> rfl))
  | .string _ s, ⟨hs, hws⟩ =>
    subst hws
    exact List.forall_mem_singleton.mpr hs
  | .unary _ op e, ⟨us, hus, hws⟩ =>
    subst hws
    rw [List.forall_mem_cons]
    exact ⟨Kind.proper_word (by cases op <;> rfl), hus.proper fun _ => Expr.Spelled.proper e⟩
  | .binary _ op l r, ⟨us, vs, hus, hvs, hws⟩ =>
    subst hws
    rw [List.forall_mem_append, List.forall_mem_cons]
    exact ⟨hus.proper fun _ => Expr.Spelled.proper l, Kind.proper_word (by cases op <;> rfl),
      hvs.proper fun _ => Expr.Spelled.proper r⟩
  | .cond _ c yes none, ⟨us, vs, hus, hvs, hws⟩ =>
    subst hws
    simp only [List.forall_mem_cons, List.forall_mem_append]
    exact ⟨Kind.proper_word rfl, Kind.proper_word rfl, hus.proper fun _ => Expr.Spelled.proper c,
      Kind.proper_word rfl, Block.Spelled.proper yes hvs⟩
  | .cond _ c yes (some no), ⟨us, vs, vs', hus, hvs, hvs', hws⟩ =>
    subst hws
    simp only [List.forall_mem_cons, List.forall_mem_append]
    exact ⟨Kind.proper_word rfl, Kind.proper_word rfl, hus.proper fun _ => Expr.Spelled.proper c,
      Kind.proper_word rfl, Block.Spelled.proper yes hvs, Kind.proper_word rfl,
      Block.Spelled.proper no hvs'⟩
  | .function _ ps body, ⟨us, hps, hus, hws⟩ =>
    subst hws
    simp only [List.forall_mem_cons, List.forall_mem_append]
    exact ⟨Kind.proper_word rfl, Kind.proper_word rfl, proper_parameterWords hps,
      Kind.proper_word rfl, Block.Spelled.proper body hus⟩
  | .call _ f es, ⟨us, vs, hus, hvs, hws⟩ =>
    subst hws
    simp only [List.forall_mem_cons, List.forall_mem_append]
    exact ⟨hus.proper fun _ => Expr.Spelled.proper f, Kind.proper_word rfl,
      Expr.SpelledAll.proper es hvs, Kind.proper_word rfl, List.forall_mem_nil _⟩
  | .array _ es, ⟨us, hus, hws⟩ =>
    subst hws
    simp only [List.forall_mem_cons, List.forall_mem_append]
    exact ⟨Kind.proper_word rfl, Expr.SpelledAll.proper es hus, Kind.proper_word rfl,
      List.forall_mem_nil _⟩
  | .hash _ ps, ⟨us, hus, hws⟩ =>
    subst hws
    simp only [List.forall_mem_cons, List.forall_mem_append]
    exact ⟨Kind.proper_word rfl, Expr.SpelledPairs.proper ps hus, Kind.proper_word rfl,
      List.forall_mem_nil _⟩
  | .index _ e i, ⟨us, vs, hus, hvs, hws⟩ =>
    subst hws
    simp only [List.forall_mem_cons, List.forall_mem_append]
    exact ⟨hus.proper fun _ => Expr.Spelled.proper e, Kind.proper_word rfl,
      hvs.proper fun _ => Expr.Spelled.proper i, Kind.proper_word rfl, List.forall_mem_nil _⟩
termination_by structural e

theorem Expr.SpelledAll.proper (es : List Expr) {ws : List Word} (h : Expr.SpelledAll lax es ws) :
    ∀ w ∈ ws, w.Proper := by
  match es, h with
  | [], h =>
    obtain rfl : ws = [] := h
    exact List.forall_mem_nil _
  | e :: es, ⟨us, vs, hus, hvs, hws⟩ =>
    subst hws
    rw [List.forall_mem_append]
    exact ⟨hus.proper fun _ => Expr.Spelled.proper e, Expr.SpelledRest.proper es hvs⟩
termination_by structural es

theorem Expr.SpelledRest.proper (es : List Expr) {ws : List Word} (h : Expr.SpelledRest lax es ws) :
    ∀ w ∈ ws, w.Proper := by
  match es, h with
  | [], h =>
    obtain rfl : ws = [] := h
    exact List.forall_mem_nil _
  | e :: es, ⟨us, vs, hus, hvs, hws⟩ =>
    subst hws
    rw [List.forall_mem_cons, List.forall_mem_append]
    exact ⟨Kind.proper_word rfl, hus.proper fun _ => Expr.Spelled.proper e,
      Expr.SpelledRest.proper es hvs⟩
termination_by structural es

theorem Expr.SpelledPairs.proper (ps : List (Expr × Expr)) {ws : List Word}
    (h : Expr.SpelledPairs lax ps ws) : ∀ w ∈ ws, w.Proper := by
  match ps, h with
  | [], h =>
    obtain rfl : ws = [] := h
    exact List.forall_mem_nil _
  | (k, v) :: ps, ⟨us, vs, separator, rest, hus, hvs, hseparator, hrest, hws⟩ =>
    subst hws
    have hcomma : ∀ w ∈ separator, w.Proper := by
      rcases hseparator with rfl | ⟨-, rfl⟩
      · exact List.forall_mem_singleton.mpr (Kind.proper_word rfl)
      · exact List.forall_mem_nil _
    simp only [List.forall_mem_cons, List.forall_mem_append]
    exact ⟨hus.proper fun _ => Expr.Spelled.proper k, Kind.proper_word rfl,
      hvs.proper fun _ => Expr.Spelled.proper v, hcomma, Expr.SpelledPairs.proper ps hrest⟩
termination_by structural ps

theorem Block.Spelled.proper (b : Block) {ws : List Word} (h : b.Spelled lax ws) :
    ∀ w ∈ ws, w.Proper := by
  match b, h with
  | .mk _ ss, ⟨us, hus, hws⟩ =>
    subst hws
    simp only [List.forall_mem_cons, List.forall_mem_append]
    exact ⟨Kind.proper_word rfl, Stmt.SpelledAll.proper ss hus, Kind.proper_word rfl,
      List.forall_mem_nil _⟩
termination_by structural b

theorem Stmt.Spelled.proper (s : Stmt) {ws : List Word} (h : s.Spelled lax ws) :
    ∀ w ∈ ws, w.Proper := by
  match s, h with
  | .bind _ id e, ⟨us, ending, hname, hus, hending, hws⟩ =>
    subst hws
    simp only [List.forall_mem_cons, List.forall_mem_append]
    exact ⟨Kind.proper_word rfl, hname, Kind.proper_word rfl,
      hus.proper fun _ => Expr.Spelled.proper e, hending.proper⟩
  | .ret _ e, ⟨us, ending, hus, hending, hws⟩ =>
    subst hws
    rw [List.forall_mem_cons, List.forall_mem_append]
    exact ⟨Kind.proper_word rfl, hus.proper fun _ => Expr.Spelled.proper e, hending.proper⟩
  | .expr _ e, ⟨us, ending, hus, hending, hws⟩ =>
    subst hws
    rw [List.forall_mem_append]
    exact ⟨hus.proper fun _ => Expr.Spelled.proper e, hending.proper⟩
  | .block _, h => exact h.elim
termination_by structural s

theorem Stmt.SpelledAll.proper (ss : List Stmt) {ws : List Word} (h : Stmt.SpelledAll lax ss ws) :
    ∀ w ∈ ws, w.Proper := by
  match ss, h with
  | [], h =>
    obtain rfl : ws = [] := h
    exact List.forall_mem_nil _
  | s :: ss, ⟨us, vs, hus, hvs, hws⟩ =>
    subst hws
    rw [List.forall_mem_append]
    exact ⟨Stmt.Spelled.proper s hus, Stmt.SpelledAll.proper ss hvs⟩
termination_by structural ss

end

/-! ### What is spelled can be written -/

theorem Enclosed.of {free P : Prop} {spelled : List Word → Prop} {ws : List Word}
    (h : Enclosed free spelled ws) (hP : ∀ us, spelled us → P) : P := by
  obtain ⟨n, us, hus, -⟩ := h
  exact hP us hus

/-- No literal stands for a negative number. -/
theorem integer?_nonneg {literal : String} {n : Int64} (h : integer? literal = some n) : 0 ≤ n := by
  unfold integer? at h
  dsimp only at h
  split at h
  · next hdigits =>
    obtain rfl := Option.some.inj h
    have hlt : decimal literal.toList < 2 ^ 63 := Nat.lt_succ_of_le hdigits.2.2
    rw [Int64.le_iff_toInt_le, Int64.toInt_ofNat_of_lt hlt]
    exact Int.natCast_nonneg _
  · cases h

mutual

theorem Expr.Spelled.writable (e : Expr) {ws : List Word} (h : e.Spelled lax ws) : e.Writable := by
  match e, h with
  | .name _, ⟨hname, _⟩ => exact hname
  | .integer _ _, ⟨_, hliteral, _, _⟩ => exact integer?_nonneg hliteral
  | .boolean _ _, _ => exact trivial
  | .string _ _, ⟨hs, _⟩ => exact hs
  | .unary _ _ e, ⟨_, hus, _⟩ => exact hus.of fun _ => Expr.Spelled.writable e
  | .binary _ _ l r, ⟨_, _, hus, hvs, _⟩ =>
    exact ⟨hus.of fun _ => Expr.Spelled.writable l, hvs.of fun _ => Expr.Spelled.writable r⟩
  | .cond _ c yes none, ⟨_, _, hus, hvs, _⟩ =>
    exact ⟨hus.of fun _ => Expr.Spelled.writable c, Block.Spelled.writable yes hvs⟩
  | .cond _ c yes (some no), ⟨_, _, _, hus, hvs, hvs', _⟩ =>
    exact ⟨hus.of fun _ => Expr.Spelled.writable c, Block.Spelled.writable yes hvs,
      Block.Spelled.writable no hvs'⟩
  | .function _ _ body, ⟨_, hps, hus, _⟩ => exact ⟨hps, Block.Spelled.writable body hus⟩
  | .call _ f es, ⟨_, _, hus, hvs, _⟩ =>
    exact ⟨hus.of fun _ => Expr.Spelled.writable f, Expr.SpelledAll.writable es hvs⟩
  | .array _ es, ⟨_, hus, _⟩ => exact Expr.SpelledAll.writable es hus
  | .hash _ ps, ⟨_, hus, _⟩ => exact Expr.SpelledPairs.writable ps hus
  | .index _ e i, ⟨_, _, hus, hvs, _⟩ =>
    exact ⟨hus.of fun _ => Expr.Spelled.writable e, hvs.of fun _ => Expr.Spelled.writable i⟩
termination_by structural e

theorem Expr.SpelledAll.writable (es : List Expr) {ws : List Word}
    (h : Expr.SpelledAll lax es ws) : Expr.WritableAll es := by
  match es, h with
  | [], _ => exact trivial
  | e :: es, ⟨_, _, hus, hvs, _⟩ =>
    exact ⟨hus.of fun _ => Expr.Spelled.writable e, Expr.SpelledRest.writable es hvs⟩
termination_by structural es

theorem Expr.SpelledRest.writable (es : List Expr) {ws : List Word}
    (h : Expr.SpelledRest lax es ws) : Expr.WritableAll es := by
  match es, h with
  | [], _ => exact trivial
  | e :: es, ⟨_, _, hus, hvs, _⟩ =>
    exact ⟨hus.of fun _ => Expr.Spelled.writable e, Expr.SpelledRest.writable es hvs⟩
termination_by structural es

theorem Expr.SpelledPairs.writable (ps : List (Expr × Expr)) {ws : List Word}
    (h : Expr.SpelledPairs lax ps ws) : Expr.WritablePairs ps := by
  match ps, h with
  | [], _ => exact trivial
  | (k, v) :: ps, ⟨_, _, _, _, hus, hvs, _, hrest, _⟩ =>
    exact ⟨hus.of fun _ => Expr.Spelled.writable k, hvs.of fun _ => Expr.Spelled.writable v,
      Expr.SpelledPairs.writable ps hrest⟩
termination_by structural ps

theorem Block.Spelled.writable (b : Block) {ws : List Word} (h : b.Spelled lax ws) :
    b.Writable := by
  match b, h with
  | .mk _ ss, ⟨_, hus, _⟩ => exact Stmt.SpelledAll.writable ss hus
termination_by structural b

theorem Stmt.Spelled.writable (s : Stmt) {ws : List Word} (h : s.Spelled lax ws) :
    s.Writable := by
  match s, h with
  | .bind _ _ e, ⟨_, _, hname, hus, _, _⟩ =>
    exact ⟨hname, hus.of fun _ => Expr.Spelled.writable e⟩
  | .ret _ e, ⟨_, _, hus, _, _⟩ => exact hus.of fun _ => Expr.Spelled.writable e
  | .expr _ e, ⟨_, _, hus, _, _⟩ => exact hus.of fun _ => Expr.Spelled.writable e
  | .block _, h => exact h.elim
termination_by structural s

theorem Stmt.SpelledAll.writable (ss : List Stmt) {ws : List Word}
    (h : Stmt.SpelledAll lax ss ws) : Stmt.WritableAll ss := by
  match ss, h with
  | [], _ => exact trivial
  | s :: ss, ⟨_, _, hus, hvs, _⟩ =>
    exact ⟨Stmt.Spelled.writable s hus, Stmt.SpelledAll.writable ss hvs⟩
termination_by structural ss

end

end

end Monkey
