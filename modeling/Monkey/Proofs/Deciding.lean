import Monkey.Proofs.Conditions
import Monkey.Proofs.Extending

/-!
# The compiler decides the conditions

`Compiling.Decides` says of a step that it succeeds when a list of conditions is met, and that it fails
with the error of the first one that is not met otherwise. The compiler decides the conditions of the
pass over a tree, from wherever it is (`Expr.compile_obeys`, `Stmt.compileAll_obeys`).

The induction carries that the compilation is where the pass is (`Compilation.At`), and that the
conditions were met up to there, which bounds the numbers of names (`Scope.Within`). With these bounds
every operand fits in its instruction, so that no instruction is ever refused. That a patch finds a
jump is due to `Compilation.Extends`: the instruction that was appended there is still there.
-/

namespace Monkey

/-! ### Scopes within their limits -/

/-- Every level is numbered without a gap, and its names fit in their storage. -/
def Scope.Within : Scope → Prop
  | outermost ns => ns.Dense ∧ ns.size ≤ Storage.global.limit
  | nested ns s => ns.Dense ∧ ns.size ≤ Storage.frame.limit ∧ s.Within

namespace Scope

theorem within_empty : Scope.empty.Within := by
  refine ⟨Numbering.dense_empty, ?_⟩
  rw [Numbering.size_empty]
  exact Nat.zero_le _

theorem Within.enclose {s : Scope} (h : s.Within) : s.enclose.Within := by
  refine ⟨Numbering.dense_empty, ?_, h⟩
  rw [Numbering.size_empty]
  exact Nat.zero_le _

theorem Within.size_le {s : Scope} (h : s.Within) : s.size ≤ s.storage.limit := by
  cases s with
  | outermost ns => exact h.2
  | nested ns s => exact h.2.1

theorem Within.dense {s : Scope} (h : s.Within) : s.names.Dense := by
  cases s with
  | outermost ns => exact h.1
  | nested ns s => exact h.1

theorem Within.define {s : Scope} (h : s.Within) (x : String)
    (hsize : (s.define x).size ≤ s.storage.limit) : (s.define x).Within := by
  cases s with
  | outermost ns => exact ⟨h.1.add x, hsize⟩
  | nested ns s => exact ⟨h.1.add x, hsize, h.2.2⟩

/-- The slot of a name is one of its storage. -/
theorem Within.slot_lt {s : Scope} (h : s.Within) {x : String} {symbol : Symbol}
    (hs : s.resolve x = some symbol) : symbol.slot < symbol.storage.limit := by
  have hfind {s : Scope} (h : s.Within) {symbol : Symbol} (hs : s.find? x = some symbol) :
      symbol.slot < symbol.storage.limit := by
    obtain ⟨slot, hslot, rfl⟩ := find?_eq_some_iff.mp hs
    exact Nat.lt_of_lt_of_le (h.dense.lt_size hslot) h.size_le
  induction s generalizing symbol with
  | outermost ns => exact hfind h hs
  | nested ns s ih =>
    rw [resolve] at hs
    split at hs
    · next symbol' hfound =>
      obtain rfl := Option.some.inj hs
      exact hfind h hfound
    · exact ih h.2.2 (Option.filter_eq_some_iff.mp hs).1

/-- The name that is bound last fits in its storage when as many names as there are then fit. -/
theorem Within.slot_lt_iff {s : Scope} (h : s.Within) {x : String} {symbol : Symbol}
    (hs : (s.define x).find? x = some symbol) :
    symbol.slot < s.storage.limit ↔ (s.define x).size ≤ s.storage.limit := by
  obtain ⟨slot, hslot, rfl⟩ := find?_eq_some_iff.mp hs
  rw [names_define] at hslot
  rw [size, names_define]
  constructor
  · intro hlt
    -- either the name had this slot before, or the slot is the next one
    rw [Numbering.find?_add] at hslot
    rw [Numbering.size_add]
    split at hslot
    · obtain rfl := Option.some.inj hslot
      change s.names.size < _ at hlt
      split
      · exact h.size_le
      · exact hlt
    · rw [if_pos (Option.isSome_of_mem (by simpa using hslot))]
      exact h.size_le
  · intro hle
    exact Nat.lt_of_lt_of_le ((h.dense.add x).lt_size hslot) hle

end Scope

/-! ### Deciding conditions -/

theorem firstFault_cons (k : Condition) (ks : List Condition) :
    firstFault (k :: ks) = if k.holds then firstFault ks else some k.error := by
  unfold firstFault
  rw [List.find?_cons]
  cases k.holds <;> rfl

theorem firstFault_append (ks ls : List Condition) :
    firstFault (ks ++ ls) = (firstFault ks).or (firstFault ls) := by
  rw [firstFault, List.find?_append, Option.map_or]
  rfl

/-- The compilation `c` is where the pass is at `p`, and all conditions were met up to there. -/
structure Compilation.At (c : Compilation) (p : Place) : Prop where
  scope : c.scope = p.scope
  literals : c.constants.size = p.literals
  offset : c.buffer.size = p.offset
  within : p.scope.Within

namespace Compiling

variable {α β : Type} {c c₁ : Compilation} {ks ls : List Condition} {p : Place}

/-- The step `x` succeeds on `c` when the conditions are met, and then `Q` holds of its result and of
the compilation it leaves; and otherwise it fails with the error of the first one that is not. -/
def Decides (x : Compiling α) (c : Compilation) (ks : List Condition)
    (Q : α → Compilation → Prop) : Prop :=
  match x.run.run c with
  | (.ok a, c') => firstFault ks = none ∧ Q a c'
  | (.error e, _) => firstFault ks = some e

theorem Decides.mono {x : Compiling α} {Q R : α → Compilation → Prop} (h : x.Decides c ks Q)
    (hQ : ∀ a c', Gives x c a c' → Q a c' → R a c') : x.Decides c ks R := by
  unfold Decides at h ⊢
  split at h
  · next a c' hgives => exact ⟨h.1, hQ a c' hgives h.2⟩
  · exact h

theorem Decides.bind {x : Compiling α} {f : α → Compiling β} {Q : α → Compilation → Prop}
    {R : β → Compilation → Prop} (hx : x.Decides c ks Q)
    (hf : ∀ a c', Gives x c a c' → Q a c' → (f a).Decides c' ls R) :
    (x >>= f).Decides c (ks ++ ls) R := by
  unfold Decides at hx ⊢
  rw [run_bind, firstFault_append]
  split at hx
  · next a c' hgives =>
    obtain ⟨hnone, ha⟩ := hx
    have hfa := hf a c' hgives ha
    rw [hgives, hnone]
    exact hfa
  · next e c' hfails =>
    rw [hfails, hx]
    rfl

theorem decides_get_bind {f : Compilation → Compiling α} {Q : α → Compilation → Prop} :
    (get >>= f).Decides c ks Q ↔ (f c).Decides c ks Q := Iff.rfl

theorem decides_modify_bind {f : Compilation → Compilation} {g : PUnit → Compiling α}
    {Q : α → Compilation → Prop} :
    (modify f >>= g).Decides c ks Q ↔ (g ⟨⟩).Decides (f c) ks Q := Iff.rfl

theorem decides_of_gives {x : Compiling α} {a : α} {Q : α → Compilation → Prop}
    (h : Gives x c a c₁) (hQ : Q a c₁) : x.Decides c [] Q := by
  unfold Decides
  rw [h]
  exact ⟨rfl, hQ⟩

/-- From wherever the pass is, the step decides its conditions and ends where the pass does. -/
def Obeys (x : Compiling α) (P : Pass) : Prop :=
  ∀ (c : Compilation) (p : Place), c.At p → x.Decides c (P p).1 fun _ c' => c'.At (P p).2

theorem Obeys.bind {x : Compiling α} {f : α → Compiling β} {P Q : Pass} (hx : x.Obeys P)
    (hf : ∀ a, (f a).Obeys Q) : (x >>= f).Obeys (P ++ Q) := by
  intro c p hc
  exact (hx c p hc).bind fun a c₁ _ hc₁ => hf a c₁ _ hc₁

theorem obeys_pure (a : α) : Obeys (pure a) .nothing := fun _ _ hc => ⟨rfl, hc⟩

/-! ### Instructions and constants -/

theorem decides_emit {op : Opcode} {ns : List Nat} {bytes : List UInt8}
    (h : op.encode ns = .ok bytes) (hc : c.At p) :
    (emit op ns).Decides c (Pass.instruction op p).1 fun _ c' => c'.At (Pass.instruction op p).2 := by
  unfold emit
  rw [h]
  refine ⟨rfl, hc.scope, hc.literals, ?_, hc.within⟩
  change (c.buffer.append op bytes).size = _
  rw [Buffer.size_append, Opcode.length_of_encode h, hc.offset]
  rfl

theorem obeys_emit {op : Opcode} (h : op.widths = []) : (emit op []).Obeys (.instruction op) :=
  fun _ _ hc => decides_emit (Opcode.encode_nil h) hc

theorem obeys_emitJump {op : Opcode} (h : op.widths = [2]) :
    (emitJump op).Obeys (.instruction op) := by
  intro c p hc
  refine (decides_emit (Opcode.encode_singleton h (by decide)) hc).bind fun _ c₁ _ hc₁ => ?_
  exact ⟨rfl, hc₁⟩

/-- A condition that is met does not matter. -/
theorem Decides.cons {k : Condition} {x : Compiling α} {Q : α → Compilation → Prop}
    (hx : x.Decides c ks Q) (hk : k.holds = true) : x.Decides c (k :: ks) Q := by
  unfold Decides at hx ⊢
  rw [firstFault_cons, if_pos hk]
  exact hx

/-- A step that goes on only when a condition is met decides it. -/
theorem decides_guard {k : Condition} {b : Prop} [Decidable b] (hb : b ↔ k.holds = true)
    {x : Compiling α} {Q : α → Compilation → Prop} (hx : b → x.Decides c ks Q) :
    (if b then x else throw k.error).Decides c (k :: ks) Q := by
  by_cases h : b
  · rw [if_pos h]
    exact (hx h).cons (hb.mp h)
  · rw [if_neg h]
    change firstFault (k :: ks) = some k.error
    rw [firstFault_cons, if_neg (mt hb.mpr h)]

theorem obeys_emitConstant (v : Value) : (emitConstant v).Obeys .literal := by
  intro c p hc
  refine decides_guard (b := c.constants.size < maxConstants) (k := .literals (p.literals + 1)) ?_
    fun hlt => ?_
  · rw [Condition.holds, decide_eq_true_iff, hc.literals, Nat.succ_le_iff]
  · have hpush : Compilation.At { c with constants := c.constants.push v }
        { p with literals := p.literals + 1 } :=
      ⟨hc.scope, by simp [hc.literals], hc.offset, hc.within⟩
    exact decides_emit (Opcode.encode_singleton rfl hlt) hpush

/-! ### Names -/

/-- A name gets a symbol of the innermost scope. -/
theorem decides_define (id : Ident) (hc : c.At p) :
    (define id).Decides c (Pass.define id p).1 fun s c' => c'.At (Pass.define id p).2 ∧
      s.storage = p.scope.storage ∧ s.slot < s.storage.limit := by
  obtain ⟨symbol, hsymbol⟩ := Option.isSome_iff_exists.mp (p.scope.isSome_find?_define id.name)
  obtain ⟨-, -, hstorage⟩ := Scope.find?_in hsymbol
  rw [Scope.storage_define] at hstorage
  have hfits : symbol.slot < symbol.storage.limit ↔
      (p.scope.define id.name).size ≤ p.scope.storage.limit := by
    rw [hstorage]
    exact hc.within.slot_lt_iff hsymbol
  have hat (hlt : symbol.slot < symbol.storage.limit) :
      Compilation.At { c with scope := p.scope.define id.name } (Pass.define id p).2 :=
    ⟨rfl, hc.literals, hc.offset, hc.within.define id.name (hfits.mp hlt)⟩
  have hholds : symbol.slot < symbol.storage.limit ↔ Condition.holds
      (.names symbol.storage (p.scope.define id.name).size id.token.span) = true := by
    rw [hfits, Condition.holds, hstorage, decide_eq_true_iff]
  have hconditions : (Pass.define id p).1 =
      [.names symbol.storage (p.scope.define id.name).size id.token.span] := by
    rw [hstorage, ← Scope.storage_define p.scope id.name]
    rfl
  rw [hconditions]
  -- the scope is changed first, and the symbol is looked up in the new one
  refine decides_modify_bind.mpr (decides_get_bind.mpr ?_)
  dsimp only
  rw [hc.scope, hsymbol, Option.getD_some]
  cases symbol with
  | mk name storage slot =>
    cases storage with
    | global => exact decides_guard hholds fun hlt => ⟨rfl, hat hlt, hstorage, hlt⟩
    | frame => exact decides_guard hholds fun hlt => ⟨rfl, hat hlt, hstorage, hlt⟩

theorem obeys_defineAll (ids : List Ident) : (defineAll ids).Obeys (.defineAll ids) := by
  induction ids with
  | nil => exact obeys_pure ()
  | cons id ids ih =>
    intro c p hc
    exact (decides_define id hc).bind fun _ c₁ _ hc₁ => ih c₁ _ hc₁.1

/-- The only condition on a name is that it is bound. -/
theorem pass_load (id : Ident) (p : Place) :
    Pass.load id p = ([.bound p.scope id], (Pass.instruction ((p.scope.resolve id.name).elim .getGlobal
      fun s => s.storage.loadOpcode) p).2) := rfl

theorem obeys_load (id : Ident) : (load id).Obeys (.load id) := by
  intro c p hc
  rw [pass_load]
  refine decides_get_bind.mpr ?_
  rw [hc.scope]
  cases h : p.scope.resolve id.name with
  | none =>
    change firstFault _ = some (Condition.error (.bound p.scope id))
    rw [firstFault_cons, if_neg (by simp [Condition.holds, h])]
  | some symbol =>
    have hbound : Condition.holds (.bound p.scope id) = true := by simp [Condition.holds, h]
    have hslot := hc.within.slot_lt h
    cases symbol with
    | mk name storage slot =>
      cases storage with
      | global => exact (decides_emit (Opcode.encode_singleton rfl hslot) hc).cons hbound
      | frame => exact (decides_emit (Opcode.encode_singleton rfl hslot) hc).cons hbound

/-- The slot of the symbol fits in the operand. -/
theorem decides_store {s : Symbol} (hc : c.At p) (hstorage : s.storage = p.scope.storage)
    (hslot : s.slot < s.storage.limit) :
    (store s).Decides c (Pass.store p).1 fun _ c' => c'.At (Pass.store p).2 := by
  unfold store Pass.store
  rw [← hstorage]
  cases h : s.storage with
  | global =>
    rw [h] at hslot
    exact decides_emit (Opcode.encode_singleton rfl hslot) hc
  | frame =>
    rw [h] at hslot
    exact decides_emit (Opcode.encode_singleton rfl hslot) hc

/-- The storage of a name does not change before its value is assigned to it. -/
theorem obeys_bind {id : Ident} {value : Compiling Unit} {P : Pass} (hvalue : value.Obeys P)
    (hextending : value.Extending) :
    (do let s ← define id; value; store s : Compiling Unit).Obeys (.define id ++ (P ++ .store)) := by
  intro c p hc
  refine (decides_define id hc).bind fun s c₁ _ ⟨hc₁, hstorage, hslot⟩ => ?_
  refine (hvalue c₁ _ hc₁).bind fun _ c₂ hgives hc₂ => ?_
  refine decides_store hc₂ ?_ hslot
  have hgrows := (hextending.of_gives hgives).scope
  rw [← hc₂.scope, hgrows.storage, hc₁.scope, hstorage]
  exact (Scope.storage_define _ _).symm

/-- A literal of many values is refused before its values are compiled, if it is. -/
theorem obeys_elements {n : Nat} {span : Span} {op : Opcode} {values : Compiling Unit} {P : Pass}
    (hop : op.widths = [2]) (hvalues : values.Obeys P) :
    Obeys (do checkLength n span; values; emit op [n])
      (.condition (fun _ => .elements n span) ++ (P ++ .instruction op)) := by
  intro c p hc
  have hlength : (checkLength n span).Decides c [.elements n span]
      fun _ c' => c'.At p ∧ n ≤ maxElements :=
    decides_guard (k := .elements n span) (by simp [Condition.holds]) fun hle => ⟨rfl, hc, hle⟩
  refine hlength.bind fun _ c₁ _ ⟨hc₁, hle⟩ => (hvalues c₁ p hc₁).bind fun _ c₂ _ hc₂ => ?_
  exact decides_emit (Opcode.encode_singleton hop (Nat.lt_succ_of_le hle)) hc₂

/-- A call is refused before its parts are compiled, if it is. -/
theorem obeys_call {n : Nat} {span : Span} {callee arguments : Compiling Unit} {P Q : Pass}
    (hcallee : callee.Obeys P) (harguments : arguments.Obeys Q) :
    Obeys (do
      if maxArguments < n then
        throw (.tooManyArguments span)
      callee
      arguments
      emit .call [n])
      (.condition (fun _ => .arguments n span) ++ (P ++ (Q ++ .instruction .call))) := by
  intro c p hc
  change Decides (ite (maxArguments < n) _ _) c (.arguments n span :: _) _
  split
  · next hlt =>
    change firstFault _ = some (Condition.error (.arguments n span))
    rw [firstFault_cons, if_neg (by simpa [Condition.holds] using hlt)]
  · next hle =>
    have hn : n < 256 ^ 1 := Nat.lt_succ_of_le (Nat.le_of_not_lt hle)
    refine Decides.cons ?_ (by simpa [Condition.holds] using hle)
    refine (hcallee c p hc).bind fun _ c₁ _ hc₁ => (harguments c₁ _ hc₁).bind fun _ c₂ _ hc₂ => ?_
    exact decides_emit (Opcode.encode_singleton rfl hn) hc₂

/-! ### Blocks and jumps -/

/-- The end of a block changes the size as its last statement has it. -/
theorem decides_finishBlock {endsInValue : Bool} {b : Buffer} (hc : c.At p)
    (hstart : b.endsWith .pop = false) (hends : c.buffer = b ∨ b.EndsBehind c.buffer)
    (hvalue : c.buffer.endsWith .pop = endsInValue) :
    finishBlock.Decides c (Pass.finishBlock endsInValue p).1
      fun _ c' => c'.At (Pass.finishBlock endsInValue p).2 := by
  change Decides (ite (c.buffer.endsWith .pop = true) _ (emit .null [])) c _ _
  rw [hvalue]
  cases endsInValue with
  | false =>
    have hnull : (emit .null []).Obeys (.instruction .null) := obeys_emit rfl
    exact hnull c p hc
  | true =>
    rcases hends with hsame | ⟨⟨op, position⟩, hlast, -, hsize⟩
    · rw [hsame, hstart] at hvalue
      cases hvalue
    · obtain rfl : op = .pop := by simpa [endsWith_eq hlast] using hvalue
      refine ⟨rfl, hc.scope, hc.literals, ?_, hc.within⟩
      change c.buffer.dropLast.size = p.offset - 1
      rw [← hc.offset, ← hsize, Buffer.dropLast, hlast, Buffer.size, Array.size_shrink]
      change min position c.buffer.size = position
      rw [← hsize]
      exact Nat.min_eq_left (Nat.le_add_right _ _)

end Compiling

/-- Behind the bytes that are written, the code is as it was. -/
theorem Buffer.getElem?_overwrite {position i : Nat} {bytes : List UInt8} (b : Buffer)
    (h : position + bytes.length ≤ i) : (b.overwrite position bytes).code[i]? = b.code[i]? := by
  induction bytes generalizing b position with
  | nil => rfl
  | cons byte bytes ih =>
    rw [List.length_cons] at h
    rw [overwrite, ih _ (by omega), Array.getElem?_setIfInBounds, if_neg (by omega)]

namespace Compilation

variable {c c₁ : Compilation} {position : Nat}

/-- A jump stands at the position. -/
def JumpsAt (c : Compilation) (position : Nat) : Prop :=
  ∃ op : Opcode, op.widths = [2] ∧ c.buffer.code[position]? = some op.byte

theorem JumpsAt.of_extends (h : c.JumpsAt position) (hextends : c.Extends c₁) :
    c₁.JumpsAt position := by
  obtain ⟨op, hop, hbyte⟩ := h
  refine ⟨op, hop, ?_⟩
  rw [← Array.getElem?_toList] at hbyte ⊢
  obtain ⟨behind, hbehind⟩ := hextends.code
  rw [← hbehind, List.getElem?_append_left (List.getElem?_eq_some_iff.mp hbyte).1]
  exact hbyte

end Compilation

namespace Compiling

variable {α β : Type} {c c₁ : Compilation} {p : Place} {op : Opcode} {m n : Nat}

theorem jumpsAt_emitJump (hop : op.widths = [2]) (h : Gives (emitJump op) c n c₁) : c₁.JumpsAt n := by
  obtain ⟨rfl, hemit⟩ := gives_emitJump.mp h
  obtain ⟨bytes, hbytes, rfl⟩ := gives_emit.mp hemit
  rw [Opcode.encode_singleton hop (by decide)] at hbytes
  refine ⟨op, hop, ?_⟩
  obtain rfl := Except.ok.inj hbytes
  rw [← Array.getElem?_toList, Buffer.toList_append]
  simp [Buffer.size]

/-- The operand of a jump is replaced, and nothing behind it. -/
theorem jumpsAt_patchJump (h : Gives (patchJump m) c () c₁) (hmn : m + 3 ≤ n) (hn : c.JumpsAt n) :
    c₁.JumpsAt n := by
  obtain ⟨-, op, bytes, -, hbytes, rfl⟩ := gives_patchJump.mp h
  obtain ⟨op', hop', hbyte⟩ := hn
  refine ⟨op', hop', ?_⟩
  have hlength : bytes.length ≤ 3 := by
    rcases Opcode.encode_cases hbytes with ⟨-, -, rfl⟩ | ⟨w, _, -, hw, -, -, rfl⟩
    · exact Nat.le_add_left 1 2
    · rw [List.length_cons, length_bigEndian]
      exact Nat.succ_le_succ hw
  rw [Buffer.getElem?_overwrite _ (by omega), hbyte]

theorem decides_patchJump (hc : c.At p) (hjump : c.JumpsAt n) :
    (patchJump n).Decides c (Pass.target p).1 fun _ c' => c'.At (Pass.target p).2 := by
  obtain ⟨op, hop, hbyte⟩ := hjump
  have hlookup : Opcode.lookup (c.buffer.code.getD n 0) = .ok op := by
    rw [Array.getD_eq_getD_getElem?, hbyte]
    exact Opcode.lookup_eq_ok_iff.mpr rfl
  change Decides _ c [.target p.offset] _
  rw [← hc.offset]
  by_cases hle : c.buffer.size ≤ maxTarget
  · have hencode := Opcode.encode_singleton hop (Nat.lt_succ_of_le hle)
    have hgives : Gives (patchJump n) c () _ := gives_patchJump.mpr ⟨hle, op, _, hlookup, hencode, rfl⟩
    refine (decides_of_gives hgives ⟨hc.scope, hc.literals, ?_, hc.within⟩).cons (decide_eq_true hle)
    exact (Buffer.size_overwrite ..).trans hc.offset
  · change Decides (ite (c.buffer.size ≤ maxTarget) _ (throw _)) c _ _
    rw [if_neg hle]
    change firstFault _ = some (Condition.error (.target c.buffer.size))
    rw [firstFault_cons, if_neg (by simpa [Condition.holds] using hle)]

/-- A conditional decides the conditions of its parts, and those of its targets where they come. -/
theorem obeys_cond {condition consequence : Compiling Unit} {rest : Nat → Compiling Unit}
    {P Q R : Pass} {endsInValue : Bool} (hcondition : condition.Obeys P) (hconsequence : consequence.Obeys Q)
    (hadvancing : consequence.Advancing)
    (hvalue : ∀ {c c'}, Gives consequence c () c' → c.buffer.endsWith .pop = false →
      c'.buffer.endsWith .pop = endsInValue)
    (hrest : ∀ {c p n}, c.At p → c.JumpsAt n → c.buffer.endsWith .pop = false →
      (rest n).Decides c (R p).1 fun _ c' => c'.At (R p).2) :
    Obeys (do
      condition
      let toAlternative ← emitJump .jumpNotTruthy
      consequence
      finishBlock
      let toEnd ← emitJump .jump
      patchJump toAlternative
      rest toEnd)
      (P ++ (.instruction .jumpNotTruthy ++ (Q ++ (.finishBlock endsInValue ++
        (.instruction .jump ++ (.target ++ R)))))) := by
  intro c p hc
  refine (hcondition c p hc).bind fun _ c₁ _ hc₁ => ?_
  refine (obeys_emitJump rfl c₁ _ hc₁).bind fun m c₂ hm hc₂ => ?_
  have hstart : c₂.buffer.endsWith .pop = false := endsWith_emit (gives_emitJump.mp hm).2 .pop
  have hjump₂ : c₂.JumpsAt m := jumpsAt_emitJump rfl hm
  refine (hconsequence c₂ _ hc₂).bind fun _ c₃ hgives hc₃ => ?_
  have hfinish := decides_finishBlock hc₃ hstart (hadvancing.ends hgives) (hvalue hgives hstart)
  have hextends₃ : c₂.Extends (finishBlock.after c₃) :=
    finishBlock_extends hstart (hadvancing.extending.of_gives hgives) (hadvancing.ends hgives)
  refine hfinish.bind fun _ c₄ hgives₄ hc₄ => ?_
  rw [after_of_gives hgives₄] at hextends₃
  refine (obeys_emitJump rfl c₄ _ hc₄).bind fun n c₅ hn hc₅ => ?_
  have hextends₅ : c₂.Extends c₅ := hextends₃.trans ((extending_emitJump _).of_gives hn)
  refine (decides_patchJump hc₅ (hjump₂.of_extends hextends₅)).bind fun _ c₆ hpatch hc₆ => ?_
  -- the second jump lies behind the first one, and keeps its placeholder when the first is patched
  have hbehind : m + 3 ≤ n := by
    obtain ⟨rfl, -⟩ := gives_emitJump.mp hm
    obtain ⟨rfl, -⟩ := gives_emitJump.mp hn
    rw [hc₁.offset]
    exact hc₂.offset.symm.le.trans hextends₃.size_le
  refine hrest hc₆ (jumpsAt_patchJump hpatch hbehind (jumpsAt_emitJump rfl hn)) ?_
  -- the other side begins behind a jump, whose patch changes no opcode
  obtain ⟨-, _, _, -, -, rfl⟩ := gives_patchJump.mp hpatch
  rw [Buffer.endsWith, Buffer.last_overwrite]
  exact endsWith_emit (gives_emitJump.mp hn).2 .pop

/-! ### Functions -/

/-- There is no condition on the end of a body. -/
theorem decides_finishBody (c : Compilation) : finishBody.Decides c [] fun _ c' =>
    c'.constants = c.constants := by
  have hreturn (c : Compilation) : Decides (do
      unless (← get).buffer.endsWith .returnValue do
        emit .ret []) c [] fun _ c' => c'.constants = c.constants := by
    change Decides (ite (c.buffer.endsWith .returnValue = true) (pure ()) (emit .ret [])) c _ _
    split
    · exact ⟨rfl, rfl⟩
    · exact ⟨rfl, rfl⟩
  change Decides (ite (c.buffer.endsWith .pop = true)
    (modifyBuffer (·.replaceLast .returnValue) >>= _) _) c _ _
  split
  · exact hreturn { c with buffer := c.buffer.replaceLast .returnValue }
  · exact hreturn c

/-- A function literal decides the conditions on its body, and then those on its constant. -/
theorem decides_function {name : Option String} {parameters : List Ident} {body : Compiling Unit}
    {ks ls : List Condition} {Q R : Unit → Compilation → Prop}
    (hbody : Decides (do defineAll parameters; body) c.enter ks Q)
    (hconstant : ∀ c₁, Gives (do defineAll parameters; body) c.enter () c₁ → Q () c₁ →
      (emitConstant (.function (c₁.close name parameters.length).1)).Decides c₁.leave ls R) :
    (function name parameters body).Decides c (ks ++ ls) R := by
  unfold Decides at hbody ⊢
  rw [run_function, firstFault_append]
  split at hbody
  · next u c₁ hgives =>
    obtain ⟨hnone, hQ⟩ := hbody
    have h := hconstant c₁ hgives hQ
    rw [hgives, hnone]
    exact h
  · next e c₁ hfails =>
    rw [hfails, hbody]
    rfl

/-- The conditions on the body of a function are decided in a scope and a stream of its own. -/
theorem obeys_function {name : Option String} {parameters : List Ident} {body : Block} {P : Pass}
    (hbody : body.compile.Obeys P) (hextending : body.compile.Extending) :
    Obeys (function name parameters do body.compile; finishBody) (.function parameters P) := by
  intro c p hc
  have henter : c.enter.At ⟨p.scope.enclose, p.literals, 0⟩ := by
    refine ⟨?_, hc.literals, rfl, hc.within.enclose⟩
    rw [← hc.scope]
    rfl
  have hparts : Decides (do defineAll parameters; body.compile; finishBody) c.enter
      ((Pass.defineAll parameters ++ P) ⟨p.scope.enclose, p.literals, 0⟩).1 fun _ c' =>
        c'.constants.size =
          ((Pass.defineAll parameters ++ P) ⟨p.scope.enclose, p.literals, 0⟩).2.literals := by
    refine (obeys_defineAll parameters _ _ henter).bind fun _ c₁ _ hc₁ => ?_
    rw [← List.append_nil (P _).1]
    refine (hbody c₁ _ hc₁).bind fun _ c₂ _ hc₂ => ?_
    exact (decides_finishBody c₂).mono fun _ c₃ _ h => h ▸ hc₂.literals
  refine decides_function hparts fun c₁ hgives hliterals => obeys_emitConstant _ _ _ ?_
  have hextends := enter_extends parameters hextending c
  rw [after_of_gives hgives] at hextends
  rw [hextends.leave_eq]
  exact ⟨hc.scope, hliterals, hc.offset, hc.within⟩

end Compiling

open Compiling

/-! ### Trees -/

mutual

/-- What the last instruction of a block is. -/
theorem Block.compile_ends (b : Block) {c c' : Compilation} {u : Unit} (h : Gives b.compile c u c') :
    c'.buffer.endsWith .pop = b.endsInValue (c.buffer.endsWith .pop) := by
  cases b with
  | mk _ statements => exact Stmt.compileAll_ends statements h
termination_by structural b

theorem Stmt.compile_ends (s : Stmt) {c c' : Compilation} {u : Unit} (h : Gives s.compile c u c') :
    c'.buffer.endsWith .pop = s.endsInValue (c.buffer.endsWith .pop) := by
  cases s with
  | bind _ id value =>
    -- the last step of a binding is the same, whatever its value is
    have hstore {value : Compiling Unit}
        (h : Gives (do let s ← define id; value; store s) c u c') :
        c'.buffer.endsWith .pop = false := by
      obtain ⟨s, c₁, -, h⟩ := gives_bind.mp h
      obtain ⟨_, c₂, -, h⟩ := gives_bind.mp h
      unfold store at h
      split at h
      · exact endsWith_emit h .pop
      · exact endsWith_emit h .pop
    cases value with
    | _ => exact hstore h
  | ret _ value =>
    obtain ⟨_, c₁, -, h⟩ := gives_bind.mp h
    exact endsWith_emit h .pop
  | expr _ value =>
    obtain ⟨_, c₁, -, h⟩ := gives_bind.mp h
    exact endsWith_emit h .pop
  | block body => exact Block.compile_ends body h
termination_by structural s

theorem Stmt.compileAll_ends (ss : List Stmt) {c c' : Compilation} {u : Unit}
    (h : Gives (Stmt.compileAll ss) c u c') :
    c'.buffer.endsWith .pop = Stmt.endInValue (c.buffer.endsWith .pop) ss := by
  cases ss with
  | nil =>
    obtain ⟨-, rfl⟩ := gives_pure.mp h
    rfl
  | cons s ss =>
    obtain ⟨_, c₁, h₁, h₂⟩ := gives_bind.mp h
    rw [Stmt.compileAll_ends ss h₂, Stmt.compile_ends s h₁]
    rfl
termination_by structural ss

end

theorem UnaryOp.widths_opcode (op : UnaryOp) : op.opcode.widths = [] := by
  cases op <;> rfl

theorem BinaryOp.widths_opcode (op : BinaryOp) : op.opcode.widths = [] := by
  cases op <;> rfl

theorem Pass.append_assoc (P Q R : Pass) : P ++ Q ++ R = P ++ (Q ++ R) := by
  funext p
  exact Prod.ext (List.append_assoc _ _ _) rfl

mutual

/-- **The compiler decides the conditions on an expression.** -/
theorem Expr.compile_obeys (e : Expr) : e.compile.Obeys e.pass := by
  cases e with
  | name id => exact obeys_load id
  | integer _ n => exact obeys_emitConstant _
  | string _ s => exact obeys_emitConstant _
  | boolean _ b =>
    cases b with
    | true => exact obeys_emit rfl
    | false => exact obeys_emit rfl
  | unary _ op e =>
    exact (Expr.compile_obeys e).bind fun _ => obeys_emit (UnaryOp.widths_opcode op)
  | binary _ op l r =>
    have hl := Expr.compile_obeys l
    have hr := Expr.compile_obeys r
    have hop := obeys_emit (BinaryOp.widths_opcode op)
    rw [Expr.compile, Expr.pass]
    split
    · rw [Pass.append_assoc]
      exact hr.bind fun _ => hl.bind fun _ => hop
    · rw [Pass.append_assoc]
      exact hl.bind fun _ => hr.bind fun _ => hop
  | cond _ condition consequence alternative =>
    have hcondition := Expr.compile_obeys condition
    have hconsequence := Block.compile_obeys consequence
    -- a block begins behind a jump, so that its own statements decide if it ends in a pop
    have hvalue {b : Block} {c c' : Compilation} (h : Gives b.compile c () c')
        (hc : c.buffer.endsWith .pop = false) : c'.buffer.endsWith .pop = b.endsInValue false := by
      rw [b.compile_ends h, hc]
    cases alternative with
    | none =>
      simp only [Expr.pass, Pass.append_assoc]
      refine obeys_cond hcondition hconsequence (Block.compile_advancing consequence) hvalue
        fun {c p n} hc hjump _ => ?_
      refine (obeys_emit rfl c p hc).bind fun _ c₁ hgives hc₁ => decides_patchJump hc₁ ?_
      exact hjump.of_extends ((extending_emit _ _).of_gives hgives)
    | some block =>
      have hblock := Block.compile_obeys block
      have hadvancing := Block.compile_advancing block
      simp only [Expr.pass, Pass.append_assoc]
      refine obeys_cond hcondition hconsequence (Block.compile_advancing consequence) hvalue
        fun {c p n} hc hjump hstart => ?_
      refine (hblock c p hc).bind fun _ c₁ hgives hc₁ => ?_
      have hends := hadvancing.ends hgives
      have hextends : c.Extends (finishBlock.after c₁) :=
        finishBlock_extends hstart (hadvancing.extending.of_gives hgives) hends
      refine (decides_finishBlock hc₁ hstart hends (hvalue hgives hstart)).bind
        fun _ c₂ hfinish hc₂ => decides_patchJump hc₂ ?_
      rw [after_of_gives hfinish] at hextends
      exact hjump.of_extends hextends
  | function _ parameters body =>
    exact obeys_function (Block.compile_obeys body) (Block.compile_advancing body).extending
  | call _ callee arguments =>
    have harguments := Expr.compileAll_obeys arguments
    simp only [Expr.pass, Pass.append_assoc]
    exact obeys_call (Expr.compile_obeys callee) harguments
  | array _ elements =>
    rw [Expr.pass, Pass.append_assoc]
    exact obeys_elements rfl (Expr.compileAll_obeys elements)
  | hash _ pairs =>
    rw [Expr.pass, Pass.append_assoc]
    exact obeys_elements rfl (Expr.compilePairs_obeys pairs)
  | index _ collection key =>
    have hkey := Expr.compile_obeys key
    have hindex := obeys_emit (rfl : Opcode.index.widths = [])
    rw [Expr.pass, Pass.append_assoc]
    exact (Expr.compile_obeys collection).bind fun _ => hkey.bind fun _ => hindex
termination_by structural e

theorem Expr.compileAll_obeys (es : List Expr) : (Expr.compileAll es).Obeys (Expr.passAll es) := by
  cases es with
  | nil => exact obeys_pure ()
  | cons e es => exact (Expr.compile_obeys e).bind fun _ => Expr.compileAll_obeys es
termination_by structural es

theorem Expr.compilePairs_obeys (ps : List (Expr × Expr)) :
    (Expr.compilePairs ps).Obeys (Expr.passPairs ps) := by
  cases ps with
  | nil => exact obeys_pure ()
  | cons p ps =>
    cases p with
    | mk key value =>
      have hvalue := Expr.compile_obeys value
      have hpairs := Expr.compilePairs_obeys ps
      rw [Expr.passPairs, Pass.append_assoc]
      exact (Expr.compile_obeys key).bind fun _ => hvalue.bind fun _ => hpairs
termination_by structural ps

theorem Block.compile_obeys (b : Block) : b.compile.Obeys b.pass := by
  cases b with
  | mk _ statements => exact Stmt.compileAll_obeys statements
termination_by structural b

/-- **The compiler decides the conditions on a statement.** -/
theorem Stmt.compile_obeys (s : Stmt) : s.compile.Obeys s.pass := by
  cases s with
  | bind _ id value =>
    rw [Stmt.pass, Pass.append_assoc]
    -- only a function literal takes the name that it is bound to
    cases value with
    | function _ parameters body =>
      have hextending := (Block.compile_advancing body).extending
      exact obeys_bind (obeys_function (Block.compile_obeys body) hextending)
        (extending_function hextending)
    | _ => exact obeys_bind (Expr.compile_obeys _) (Expr.compile_extending _)
  | ret _ value => exact (Expr.compile_obeys value).bind fun _ => obeys_emit rfl
  | expr _ value => exact (Expr.compile_obeys value).bind fun _ => obeys_emit rfl
  | block body => exact Block.compile_obeys body
termination_by structural s

theorem Stmt.compileAll_obeys (ss : List Stmt) : (Stmt.compileAll ss).Obeys (Stmt.passAll ss) := by
  cases ss with
  | nil => exact obeys_pure ()
  | cons s ss => exact (Stmt.compile_obeys s).bind fun _ => Stmt.compileAll_obeys ss
termination_by structural ss

end

end Monkey
