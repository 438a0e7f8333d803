import Monkey.Proofs.Generation
import Monkey.Proofs.Scoped
import Monkey.Proofs.Steps

/-!
# The compiler emits the code of the resolved program

`Compiling.Gives x c a c'` says that the step `x` succeeds on the compilation `c`, with the result
`a`, and leaves `c'`. When a tree compiles, it also resolves, and what is appended to the code is the
layout of the pieces of the resolved tree (`Compiling.Realizes`; `Expr.compile_spec`,
`Stmt.compileAll_spec`). The placeholders, their patches, the instructions taken back and the
instructions turned into returns are gone from this statement, and no later proof meets them.

The induction carries two facts about the buffer. What was there before a tree stays as it was
(`Compilation.Emits`), so that a patch, which only writes into what came behind, cannot spoil it. And
behind statements the last instruction is the one that the last of them ends in (`Buffer.Ends`), or
there is none and the buffer is unchanged.
-/

namespace Monkey

namespace Compiling

/-! ### Steps that succeed -/

/-- The step `x` succeeds on `c` with the result `a` and leaves `c'`. -/
def Gives {α : Type} (x : Compiling α) (c : Compilation) (a : α) (c' : Compilation) : Prop :=
  x.run.run c = (.ok a, c')

variable {α β : Type} {c c' : Compilation}

theorem gives_bind {x : Compiling α} {f : α → Compiling β} {b : β} :
    Gives (x >>= f) c b c' ↔ ∃ a c₁, Gives x c a c₁ ∧ Gives (f a) c₁ b c' := by
  unfold Gives
  rw [run_bind]
  rcases x.run.run c with ⟨e | a, c₁⟩
  · constructor
    · intro h
      cases h
    · rintro ⟨_, _, h, -⟩
      cases h
  · constructor
    · intro h
      exact ⟨a, c₁, rfl, h⟩
    · rintro ⟨_, _, h, h'⟩
      cases h
      exact h'

theorem gives_pure {a b : α} : Gives (pure a) c b c' ↔ a = b ∧ c = c' := by
  change (Except.ok a, c) = (Except.ok b, c') ↔ _
  simp

theorem gives_get {a : Compilation} : Gives get c a c' ↔ c = a ∧ c = c' := by
  change (Except.ok c, c) = (Except.ok a, c') ↔ _
  simp

theorem gives_modify {f : Compilation → Compilation} {u : Unit} :
    Gives (modify f) c u c' ↔ f c = c' := by
  change (Except.ok (), f c) = (Except.ok u, c') ↔ _
  simp

theorem not_gives_throw {e : CompileError} {a : α} : ¬ Gives (throw e) c a c' := by
  intro h
  cases h

theorem gives_modifyBuffer {f : Buffer → Buffer} {u : Unit} :
    Gives (modifyBuffer f) c u c' ↔ { c with buffer := f c.buffer } = c' := gives_modify

theorem gives_emit {op : Opcode} {ns : List Nat} {u : Unit} :
    Gives (emit op ns) c u c' ↔
      ∃ bytes, op.encode ns = .ok bytes ∧ { c with buffer := c.buffer.append op bytes } = c' := by
  unfold emit
  cases h : op.encode ns with
  | ok bytes => simp [gives_modifyBuffer]
  | error e => simp [not_gives_throw]

theorem gives_offset {n : Nat} : Gives offset c n c' ↔ c.buffer.size = n ∧ c = c' := by
  simp only [offset, gives_bind, gives_get, gives_pure]
  constructor
  · rintro ⟨_, _, ⟨rfl, rfl⟩, rfl, rfl⟩
    exact ⟨rfl, rfl⟩
  · rintro ⟨rfl, rfl⟩
    exact ⟨_, _, ⟨rfl, rfl⟩, rfl, rfl⟩

theorem gives_emitJump {op : Opcode} {n : Nat} :
    Gives (emitJump op) c n c' ↔ c.buffer.size = n ∧ Gives (emit op [0xFFFF]) c () c' := by
  simp only [emitJump, gives_bind, gives_offset, gives_pure]
  constructor
  · rintro ⟨_, _, ⟨rfl, rfl⟩, _, _, h, rfl, rfl⟩
    exact ⟨rfl, h⟩
  · rintro ⟨rfl, h⟩
    exact ⟨_, _, ⟨rfl, rfl⟩, (), _, h, rfl, rfl⟩

theorem gives_patchJump {position : Nat} {u : Unit} :
    Gives (patchJump position) c u c' ↔ c.buffer.size ≤ maxTarget ∧
      ∃ op bytes, Opcode.lookup (c.buffer.code.getD position 0) = .ok op ∧
        op.encode [c.buffer.size] = .ok bytes ∧
        { c with buffer := c.buffer.overwrite position bytes } = c' := by
  simp only [patchJump, gives_bind, gives_offset]
  constructor
  · rintro ⟨_, _, ⟨rfl, rfl⟩, h⟩
    split at h
    · next hle =>
      obtain ⟨_, _, ⟨rfl, rfl⟩, h⟩ := gives_bind.mp h
      split at h
      · next op hop =>
        split at h
        · next bytes hbytes => exact ⟨hle, op, bytes, hop, hbytes, gives_modifyBuffer.mp h⟩
        · exact absurd h not_gives_throw
      · exact absurd h not_gives_throw
    · exact absurd h not_gives_throw
  · rintro ⟨hle, op, bytes, hop, hbytes, h⟩
    refine ⟨_, _, ⟨rfl, rfl⟩, ?_⟩
    rw [if_pos hle]
    refine gives_bind.mpr ⟨_, _, gives_get.mpr ⟨rfl, rfl⟩, ?_⟩
    rw [hop]
    dsimp only
    rw [hbytes]
    exact gives_modifyBuffer.mpr h

theorem gives_emitConstant {v : Value} {u : Unit} (h : Gives (emitConstant v) c u c') :
    Gives (emit .constant [c.constants.size]) { c with constants := c.constants.push v } () c' := by
  simp only [emitConstant, gives_bind, gives_get] at h
  obtain ⟨_, _, ⟨rfl, rfl⟩, h⟩ := h
  split at h
  · simp only [gives_bind, gives_modify] at h
    obtain ⟨_, _, rfl, h⟩ := h
    exact h
  · exact absurd h not_gives_throw

/-- A name is bound if its slot is within the limit. -/
theorem gives_define {id : Ident} {s : Symbol} :
    Gives (define id) c s c' ↔ (c.scope.define id.name).find? id.name = some s ∧
      s.slot < s.storage.limit ∧ { c with scope := c.scope.define id.name } = c' := by
  obtain ⟨⟨name, storage, slot⟩, hsymbol⟩ :=
    Option.isSome_iff_exists.mp (c.scope.isSome_find?_define id.name)
  simp only [define, gives_bind, gives_modify, gives_get, hsymbol]
  constructor
  · rintro ⟨_, _, rfl, _, _, ⟨rfl, rfl⟩, h⟩
    simp only [hsymbol, Option.getD_some] at h
    cases storage with
    | global | frame =>
      dsimp only at h
      split at h
      · next hslot =>
        obtain ⟨rfl, rfl⟩ := gives_pure.mp h
        exact ⟨rfl, hslot, rfl⟩
      · exact absurd h not_gives_throw
  · rintro ⟨hs, hslot, rfl⟩
    obtain rfl := Option.some.inj hs
    refine ⟨(), _, rfl, _, _, ⟨rfl, rfl⟩, ?_⟩
    simp only [hsymbol, Option.getD_some]
    cases storage with
    | global | frame =>
      dsimp only [Storage.limit] at hslot ⊢
      rw [if_pos hslot]
      exact gives_pure.mpr ⟨rfl, rfl⟩

/-- A name is bound to its slot in the innermost scope. -/
theorem gives_define_of_slot {id : Ident} {slot : Nat}
    (h : (c.scope.names.add id.name).find? id.name = some slot)
    (hslot : slot < c.scope.storage.limit) :
    Gives (define id) c ⟨id.name, c.scope.storage, slot⟩
      { c with scope := c.scope.define id.name } := by
  refine gives_define.mpr ⟨?_, hslot, rfl⟩
  rw [Scope.find?, Scope.names_define, h, Option.map_some, Scope.storage_define]

/-- A name is read if it is in scope. -/
theorem gives_load {id : Ident} {u : Unit} :
    Gives (load id) c u c' ↔ ∃ s, c.scope.resolve id.name = some s ∧
      Gives (emit s.storage.loadOpcode [s.slot]) c () c' := by
  simp only [load, gives_bind, gives_get]
  constructor
  · rintro ⟨_, _, ⟨rfl, rfl⟩, h⟩
    split at h
    · next hs => exact ⟨_, hs, h⟩
    · next hs => exact ⟨_, hs, h⟩
    · exact absurd h not_gives_throw
  · rintro ⟨⟨name, storage, slot⟩, hs, h⟩
    refine ⟨_, _, ⟨rfl, rfl⟩, ?_⟩
    rw [hs]
    cases storage with
    | global | frame => exact h

theorem gives_lift {x : StateM Compilation α} {a : α} :
    Gives (ExceptT.lift x) c a c' ↔ x.run c = (a, c') := by
  change (Except.ok (x.run c).1, (x.run c).2) = (Except.ok a, c') ↔ _
  constructor
  · intro h
    obtain ⟨ha, rfl⟩ := Prod.mk.inj h
    rw [← Except.ok.inj ha]
    rfl
  · intro h
    rw [h]

theorem gives_modifyGet {f : Compilation → α × Compilation} {a : α} :
    Gives (modifyGet f) c a c' ↔ f c = (a, c') := by
  change (Except.ok (f c).1, (f c).2) = (Except.ok a, c') ↔ _
  simp [Prod.ext_iff]

theorem gives_checkLength {length : Nat} {span : Span} {u : Unit}
    (h : Gives (checkLength length span) c u c') : c = c' := by
  unfold checkLength at h
  split at h
  · exact (gives_pure.mp h).2
  · exact absurd h not_gives_throw

/-- What compiling a function literal consists of. -/
theorem gives_function {name : Option String} {parameters : List Ident} {body : Compiling Unit}
    {u : Unit} : Gives (function name parameters body) c u c' ↔
    ∃ c₁ c₂, Gives (defineAll parameters) c.enter () c₁ ∧ Gives body c₁ () c₂ ∧
      Gives (emitConstant (.function (c₂.close name parameters.length).1)) c₂.leave () c' := by
  simp only [function, gives_bind, gives_modify, gives_lift, gives_modifyGet]
  constructor
  · rintro ⟨_, _, rfl, outcome, c₂, hbody, f, _, hclose, h⟩
    cases outcome with
    | error e => exact absurd h not_gives_throw
    | ok u =>
      obtain ⟨_, c₁, h₁, h₂⟩ := gives_bind.mp hbody
      obtain ⟨rfl, rfl⟩ := Prod.mk.inj hclose
      exact ⟨c₁, c₂, h₁, h₂, h⟩
  · rintro ⟨c₁, c₂, h₁, h₂, h⟩
    exact ⟨(), _, rfl, .ok (), c₂, gives_bind.mpr ⟨(), c₁, h₁, h₂⟩, _, _, rfl, h⟩

/-! ### What the steps append -/

end Compiling

/-- The code of `ps` was appended, and the code around the function is as it was. -/
structure Compilation.Emits (c c' : Compilation) (ps : List Piece) : Prop where
  outer : c'.outer = c.outer
  code : c'.buffer.code.toList = c.buffer.code.toList ++ Piece.bytesAll c.buffer.size ps
  fits : Piece.FitsAll c.buffer.size ps

namespace Compilation

variable {c c₁ c₂ : Compilation} {ps qs : List Piece}

theorem Emits.refl (c : Compilation) : c.Emits c [] :=
  ⟨rfl, by simp [Piece.bytesAll], trivial⟩

theorem Emits.size (h : c.Emits c₁ ps) : c₁.buffer.size = c.buffer.size + Piece.sizeAll ps := by
  have hlength := congrArg List.length h.code
  rwa [List.length_append, Piece.length_bytesAll ps h.fits, Array.length_toList,
    Array.length_toList] at hlength

theorem Emits.trans (h : c.Emits c₁ ps) (h' : c₁.Emits c₂ qs) : c.Emits c₂ (ps ++ qs) where
  outer := h'.outer.trans h.outer
  code := by
    rw [h'.code, h.code, h.size, Piece.bytesAll_append, List.append_assoc]
  fits := Piece.fitsAll_append.mpr ⟨h.fits, h.size ▸ h'.fits⟩

end Compilation

namespace Buffer

theorem toList_append (b : Buffer) (op : Opcode) (bytes : List UInt8) :
    (b.append op bytes).code.toList = b.code.toList ++ bytes := by
  simp [append]

/-- As many bytes are replaced as are written. -/
theorem toList_overwrite {b : Buffer} {before old behind bytes : List UInt8} {position : Nat}
    (h : b.code.toList = before ++ old ++ behind) (hposition : position = before.length)
    (hlength : old.length = bytes.length) :
    (b.overwrite position bytes).code.toList = before ++ bytes ++ behind := by
  induction bytes generalizing b before old position with
  | nil =>
    obtain rfl := List.length_eq_zero_iff.mp hlength
    exact h
  | cons byte bytes ih =>
    obtain ⟨x, old, rfl⟩ := List.exists_cons_of_length_eq_add_one hlength
    -- the first byte belongs to what stands before the rest
    have hfirst : (b.code.setIfInBounds position byte).toList = (before ++ [byte]) ++ old ++ behind := by
      simp [h, hposition]
    rw [overwrite, ih hfirst (by simp [hposition]) (by simpa using hlength)]
    simp

@[simp] theorem size_overwrite (b : Buffer) (position : Nat) (bytes : List UInt8) :
    (b.overwrite position bytes).size = b.size := by
  induction bytes generalizing b position with
  | nil => rfl
  | cons byte bytes ih =>
    rw [overwrite, ih]
    simp [size]

@[simp] theorem last_overwrite (b : Buffer) (position : Nat) (bytes : List UInt8) :
    (b.overwrite position bytes).last = b.last := by
  induction bytes generalizing b position with
  | nil => rfl
  | cons byte bytes ih => rw [overwrite, ih]

end Buffer

/-- Behind the code of commands: `b'` ends in the instruction that the last of them ends in, and
without any of them it is `b`. -/
def Buffer.Ends (b b' : Buffer) (cs : List Command) : Prop :=
  match cs.getLast? with
  | none => b' = b
  | some d => ∃ position, b'.last = some ⟨d.final, position⟩ ∧
      position + 1 + d.final.layout.operandLength = b'.size

theorem Buffer.Ends.append {b b₁ b₂ : Buffer} {cs ds : List Command} (h : b.Ends b₁ cs)
    (h' : b₁.Ends b₂ ds) : b.Ends b₂ (cs ++ ds) := by
  unfold Buffer.Ends at h h' ⊢
  rw [List.getLast?_append]
  cases hd : ds.getLast? with
  | none =>
    rw [hd] at h'
    rw [h']
    exact h
  | some d =>
    rw [hd] at h'
    exact h'

/-! ### Names and literals -/

/-- The compilation `c` is where the walk `w` is, and the bodies of all functions so far can be
encoded. -/
structure Compilation.Follows (c : Compilation) (w : Walk) : Prop where
  scope : c.scope = w.scope
  constants : c.constants = Literal.values w.literals
  fits : ∀ (i : Nat) name parameters names body,
    w.literals[i]? = some (.function name parameters names body) →
      Piece.FitsAll 0 (Command.bodyPieces body)

namespace Compiling

variable {c c' : Compilation} {w : Walk}

theorem define_spec {id : Ident} {s : Symbol} (hc : c.Follows w) (h : Gives (define id) c s c') :
    ∃ w', Resolving.define id.name w = some (s, w') ∧ c'.Follows w' ∧ c'.buffer = c.buffer ∧
      c'.outer = c.outer := by
  obtain ⟨hsymbol, -, rfl⟩ := gives_define.mp h
  refine ⟨{ w with scope := w.scope.define id.name }, ?_, ⟨?_, hc.constants, hc.fits⟩, rfl, rfl⟩
  · rw [Resolving.define, ← hc.scope, hsymbol]
    rfl
  · rw [hc.scope]

theorem defineAll_spec {ids : List Ident} {u : Unit} (hc : c.Follows w)
    (h : Gives (defineAll ids) c u c') :
    ∃ w', Resolving.defineAll (ids.map Ident.name) w = some ((), w') ∧ c'.Follows w' ∧
      c'.buffer = c.buffer ∧ c'.outer = c.outer := by
  induction ids generalizing c w with
  | nil =>
    obtain ⟨-, rfl⟩ := gives_pure.mp h
    exact ⟨w, rfl, hc, rfl, rfl⟩
  | cons id ids ih =>
    obtain ⟨s, c₁, hid, hids⟩ := gives_bind.mp h
    obtain ⟨w₁, hw₁, hc₁, hbuffer₁, houter₁⟩ := define_spec hc hid
    obtain ⟨w₂, hw₂, hc₂, hbuffer₂, houter₂⟩ := ih hc₁ hids
    exact ⟨w₂, Resolving.bind_eq_some.mpr ⟨s, w₁, hw₁, hw₂⟩, hc₂, hbuffer₂.trans hbuffer₁,
      houter₂.trans houter₁⟩

theorem emits_emit {op : Opcode} {ns : List Nat} {u : Unit} (hc : c.Follows w)
    (h : Gives (emit op ns) c u c') :
    c'.Follows w ∧ c.Emits c' [.op op ns] ∧ c'.buffer.last = some ⟨op, c.buffer.size⟩ := by
  obtain ⟨bytes, hbytes, rfl⟩ := gives_emit.mp h
  refine ⟨⟨hc.scope, hc.constants, hc.fits⟩, ⟨rfl, ?_, ⟨bytes, hbytes⟩, trivial⟩, rfl⟩
  simp [Buffer.toList_append, Piece.bytesAll, Piece.bytes, Piece.encodeD_eq hbytes]

theorem load_spec {id : Ident} {u : Unit} (hc : c.Follows w) (h : Gives (load id) c u c') :
    ∃ s, Resolving.symbol id.name w = some (s, w) ∧ c'.Follows w ∧ c.Emits c' [s.loadPiece] := by
  obtain ⟨⟨name, storage, slot⟩, hs, hemit⟩ := gives_load.mp h
  obtain ⟨hc', hemits, -⟩ := emits_emit hc hemit
  refine ⟨_, Resolving.symbol_eq_some.mpr ⟨hc.scope ▸ hs, rfl⟩, hc', ?_⟩
  cases storage with
  | global | frame => exact hemits

/-- The constant of a literal gets the number of the literal. -/
theorem emitConstant_spec {l : Literal} {u : Unit} (hc : c.Follows w)
    (hfits : ∀ name parameters names body, l = .function name parameters names body →
      Piece.FitsAll 0 (Command.bodyPieces body))
    (h : Gives (emitConstant (l.value w.literals.size)) c u c') :
    c'.Follows { w with literals := w.literals.push l } ∧
      c.Emits c' [.op .constant [w.literals.size]] := by
  have hsize : c.constants.size = w.literals.size := by simp [hc.constants, Literal.values]
  have hpush : Compilation.Follows { c with constants := c.constants.push (l.value w.literals.size) }
      { w with literals := w.literals.push l } := by
    refine ⟨hc.scope, ?_, fun i name parameters names body hi => ?_⟩
    · simp [hc.constants, Literal.values, Array.mapIdx_push]
    · rw [Array.getElem?_push] at hi
      split at hi
      · exact hfits _ _ _ _ (Option.some.inj hi)
      · exact hc.fits _ _ _ _ _ hi
  obtain ⟨hc', hemits, -⟩ := emits_emit hpush (gives_emitConstant h)
  rw [hsize] at hemits
  exact ⟨hc', ⟨hemits.outer, hemits.code, hemits.fits⟩⟩

/-! ### The ends of blocks -/

theorem endsWith_eq {b : Buffer} {op op' : Opcode} {position : Nat}
    (h : b.last = some ⟨op, position⟩) : b.endsWith op' = (op == op') := by
  rw [Buffer.endsWith, h]

/-- The last command is an expression exactly when the last instruction is `OpPop`. -/
theorem endsWith_of_ends {b b' : Buffer} {cs : List Command} {op : Opcode} (h : b.Ends b' cs)
    (hop : b.endsWith op = false) :
    b'.endsWith op = true ↔ ∃ ds d, cs = ds ++ [d] ∧ d.final = op := by
  unfold Buffer.Ends at h
  cases hlast : cs.getLast? with
  | none =>
    rw [hlast] at h
    rw [h, hop, List.getLast?_eq_none_iff.mp hlast]
    simp
  | some d =>
    rw [hlast] at h
    obtain ⟨position, hposition, -⟩ := h
    obtain ⟨ds, rfl⟩ := List.getLast?_eq_some_iff.mp hlast
    rw [endsWith_eq hposition]
    simp

/-- Behind an expression statement, the code without its last byte is that of its value. -/
theorem emits_concat_drop {c c' : Compilation} {cs : List Command} {t : Term}
    (hemits : c.Emits c' (Command.piecesAll (cs ++ [.drop t])))
    (hends : c.buffer.Ends c'.buffer (cs ++ [.drop t])) :
    ∃ bytes, c'.buffer.code.toList = bytes ++ [Opcode.pop.byte] ∧
      c'.buffer.last = some ⟨.pop, bytes.length⟩ ∧
      bytes = c.buffer.code.toList ++
        Piece.bytesAll c.buffer.size (Command.piecesAll cs ++ t.pieces) ∧
      Piece.FitsAll c.buffer.size (Command.piecesAll cs ++ t.pieces) := by
  have hpieces : Command.piecesAll (cs ++ [.drop t]) =
      Command.piecesAll cs ++ t.pieces ++ [.op .pop []] := by
    simp [Command.piecesAll, Command.pieces]
  have hcode := hemits.code
  have hfits := hemits.fits
  rw [hpieces] at hcode hfits
  have hbyte (start : Nat) : Piece.bytesAll start [.op .pop []] = [Opcode.pop.byte] := rfl
  rw [Piece.bytesAll_append, hbyte, ← List.append_assoc] at hcode
  refine ⟨_, hcode, ?_, rfl, (Piece.fitsAll_append.mp hfits).1⟩
  simp only [Buffer.Ends, List.getLast?_concat] at hends
  obtain ⟨position, hlast, hposition⟩ := hends
  have hlength := congrArg List.length hcode
  rw [hlast]
  simp only [Array.length_toList, List.length_append, List.length_singleton] at hlength ⊢
  simp only [Command.final, Buffer.size, Layout.operandLength, Opcode.layout, List.foldr_nil]
    at hposition
  congr 2
  omega

theorem finishBlock_spec {c₁ : Compilation} {cs : List Command} {u : Unit} (hc : c₁.Follows w)
    (hstart : c.buffer.endsWith .pop = false) (hemits : c.Emits c₁ (Command.piecesAll cs))
    (hends : c.buffer.Ends c₁.buffer cs) (h : Gives finishBlock c₁ u c') :
    c'.Follows w ∧ c.Emits c' (Command.valuePieces cs) := by
  simp only [finishBlock, gives_bind, gives_get] at h
  obtain ⟨_, _, ⟨rfl, rfl⟩, h⟩ := h
  by_cases hpop : c₁.buffer.endsWith .pop = true
  · obtain ⟨ds, d, rfl, hd⟩ := (endsWith_of_ends hends hstart).mp hpop
    obtain ⟨t, rfl⟩ := Command.final_eq_pop hd
    obtain ⟨bytes, hcode, hlast, hbytes, hfits⟩ := emits_concat_drop hemits hends
    rw [if_pos hpop, gives_modifyBuffer] at h
    subst h
    rw [Command.valuePieces_concat_drop]
    refine ⟨⟨hc.scope, hc.constants, hc.fits⟩, ⟨hemits.outer, ?_, hfits⟩⟩
    rw [← hbytes]
    simp [Buffer.dropLast, hlast, hcode]
  · rw [if_neg hpop] at h
    obtain ⟨hc', hnull, -⟩ := emits_emit hc h
    refine ⟨hc', ?_⟩
    rw [Command.valuePieces_of_final]
    · exact hemits.trans hnull
    · intro d hd hfinal
      obtain ⟨ds, rfl⟩ := List.getLast?_eq_some_iff.mp hd
      exact hpop ((endsWith_of_ends hends hstart).mpr ⟨ds, d, rfl, hfinal⟩)

theorem finishBody_spec {c₁ : Compilation} {cs : List Command} {u : Unit} (hc : c₁.Follows w)
    (hstart : ∀ op, c.buffer.endsWith op = false) (hemits : c.Emits c₁ (Command.piecesAll cs))
    (hends : c.buffer.Ends c₁.buffer cs) (h : Gives finishBody c₁ u c') :
    c'.Follows w ∧ c.Emits c' (Command.bodyPieces cs) := by
  simp only [finishBody, gives_bind, gives_get] at h
  obtain ⟨_, _, ⟨rfl, rfl⟩, h⟩ := h
  by_cases hpop : c₁.buffer.endsWith .pop = true
  · -- the value of the last statement is returned in place of being popped
    obtain ⟨ds, d, rfl, hd⟩ := (endsWith_of_ends hends (hstart _)).mp hpop
    obtain ⟨t, rfl⟩ := Command.final_eq_pop hd
    obtain ⟨bytes, hcode, hlast, hbytes, hfits⟩ := emits_concat_drop hemits hends
    simp only [if_pos hpop, gives_bind, gives_modifyBuffer, gives_get] at h
    obtain ⟨_, _, rfl, _, _, ⟨rfl, rfl⟩, h⟩ := h
    have hreturn : (c₁.buffer.replaceLast .returnValue).endsWith .returnValue = true := by
      simp [Buffer.replaceLast, Buffer.endsWith, hlast]
    rw [if_pos hreturn] at h
    obtain ⟨-, rfl⟩ := gives_pure.mp h
    rw [Command.bodyPieces_concat_drop, ← List.append_assoc]
    refine ⟨⟨hc.scope, hc.constants, hc.fits⟩, ⟨hemits.outer, ?_, ?_⟩⟩
    · have hbyte (start : Nat) : Piece.bytesAll start [.op .returnValue []] =
        [Opcode.returnValue.byte] := rfl
      rw [Piece.bytesAll_append, hbyte, ← List.append_assoc, ← hbytes]
      simp [Buffer.replaceLast, hlast, hcode]
    · exact Piece.fitsAll_append.mpr ⟨hfits, ⟨_, rfl⟩, trivial⟩
  · simp only [if_neg hpop, gives_bind, gives_get] at h
    obtain ⟨_, _, ⟨rfl, rfl⟩, h⟩ := h
    by_cases hreturn : c₁.buffer.endsWith .returnValue = true
    · -- the body ends in a return statement
      rw [if_pos hreturn] at h
      obtain ⟨-, rfl⟩ := gives_pure.mp h
      obtain ⟨ds, d, rfl, hd⟩ := (endsWith_of_ends hends (hstart _)).mp hreturn
      obtain ⟨t, rfl⟩ := Command.final_eq_returnValue hd
      rw [Command.bodyPieces_concat_ret]
      exact ⟨hc, hemits⟩
    · -- the body is empty or ends in a binding, and returns null
      rw [if_neg hreturn] at h
      obtain ⟨hc', hret, -⟩ := emits_emit hc h
      refine ⟨hc', ?_⟩
      rw [Command.bodyPieces_of_final]
      · exact hemits.trans hret
      · intro d hd
        obtain ⟨ds, rfl⟩ := List.getLast?_eq_some_iff.mp hd
        exact ⟨fun hfinal => hpop ((endsWith_of_ends hends (hstart _)).mpr ⟨ds, d, rfl, hfinal⟩),
          fun hfinal => hreturn ((endsWith_of_ends hends (hstart _)).mpr ⟨ds, d, rfl, hfinal⟩)⟩

/-! ### Branches -/

theorem toList_emitJump {op : Opcode} {n : Nat} (hop : op = .jump ∨ op = .jumpNotTruthy)
    (h : Gives (emitJump op) c n c') :
    n = c.buffer.code.toList.length ∧ c'.outer = c.outer ∧
      c'.buffer.code.toList = c.buffer.code.toList ++ [op.byte, 255, 255] := by
  obtain ⟨rfl, hemit⟩ := gives_emitJump.mp h
  obtain ⟨bytes, hbytes, rfl⟩ := gives_emit.mp hemit
  rw [Piece.encode_jump hop (by decide)] at hbytes
  refine ⟨by simp [Buffer.size], rfl, ?_⟩
  rw [Buffer.toList_append, ← Except.ok.inj hbytes]
  rfl

/-- A jump gets its target, wherever it stands. -/
theorem toList_patchJump {op : Opcode} {x y : UInt8} {before behind : List UInt8} {position : Nat}
    {u : Unit} (hop : op = .jump ∨ op = .jumpNotTruthy) (h : Gives (patchJump position) c u c')
    (hcode : c.buffer.code.toList = before ++ op.byte :: x :: y :: behind)
    (hposition : position = before.length) :
    c.buffer.size ≤ maxTarget ∧ c'.outer = c.outer ∧ c'.buffer.size = c.buffer.size ∧
      c'.buffer.code.toList = before ++ op.byte :: bigEndian 2 c.buffer.size ++ behind := by
  obtain ⟨htarget, op', bytes, hlookup, hbytes, rfl⟩ := gives_patchJump.mp h
  have hbyte : c.buffer.code.getD position 0 = op.byte := by
    rw [Array.getD_eq_getD_getElem?, ← Array.getElem?_toList, hcode, hposition]
    simp
  obtain rfl : op' = op := by
    rw [hbyte, Opcode.lookup_eq_ok_iff.mpr rfl] at hlookup
    exact (Except.ok.inj hlookup).symm
  rw [Piece.encode_jump hop htarget] at hbytes
  obtain rfl := Except.ok.inj hbytes
  have hold : c.buffer.code.toList = before ++ [op'.byte, x, y] ++ behind := by
    rw [hcode]
    simp
  exact ⟨htarget, rfl, Buffer.size_overwrite .., Buffer.toList_overwrite hold hposition (by simp)⟩

/-- Two jumps with their patches make a branch. The patches write behind what was there before,
and into nothing but the operands of the jumps. -/
theorem emits_branch {c₁ c₂ c₃ c₄ c₅ c₆ : Compilation} {yes no : List Piece} {m n : Nat} {u v : Unit}
    (h₁ : Gives (emitJump .jumpNotTruthy) c m c₁) (h₂ : c₁.Emits c₂ yes)
    (h₃ : Gives (emitJump .jump) c₂ n c₃) (h₄ : Gives (patchJump m) c₃ u c₄)
    (h₅ : c₄.Emits c₅ no) (h₆ : Gives (patchJump n) c₅ v c₆) :
    c.Emits c₆ [.branch yes no] := by
  -- both jumps are emitted with a placeholder for their target
  obtain ⟨rfl, houter₁, hcode₁⟩ := toList_emitJump (.inr rfl) h₁
  obtain ⟨rfl, houter₃, hcode₃⟩ := toList_emitJump (.inl rfl) h₃
  have hsize₁ : c₁.buffer.size = c.buffer.size + 3 := by
    simpa [Buffer.size] using congrArg List.length hcode₁
  have hsize₂ := h₂.size
  have hsize₃ : c₃.buffer.size = c₂.buffer.size + 3 := by
    simpa [Buffer.size] using congrArg List.length hcode₃
  have hcode₃' : c₃.buffer.code.toList = c.buffer.code.toList ++ Opcode.jumpNotTruthy.byte :: 255 ::
      255 :: (Piece.bytesAll (c.buffer.size + 3) yes ++ [Opcode.jump.byte, 255, 255]) := by
    rw [hcode₃, h₂.code, hcode₁, hsize₁]
    simp
  -- the right side begins behind the second jump, and this is the target of the first one
  obtain ⟨htarget₄, houter₄, hsize₄, hcode₄⟩ := toList_patchJump (.inr rfl) h₄ hcode₃' rfl
  have hcode₅ := h₅.code
  have hsize₅ := h₅.size
  simp only [hcode₄, hsize₄] at hcode₅ hsize₅
  have hcode₅' : c₅.buffer.code.toList = (c.buffer.code.toList ++ Opcode.jumpNotTruthy.byte ::
      bigEndian 2 c₃.buffer.size ++ Piece.bytesAll (c.buffer.size + 3) yes) ++ Opcode.jump.byte ::
      255 :: 255 :: Piece.bytesAll c₃.buffer.size no := by
    rw [hcode₅]
    simp
  have hposition : c₂.buffer.code.toList.length = (c.buffer.code.toList ++
      Opcode.jumpNotTruthy.byte :: bigEndian 2 c₃.buffer.size ++
        Piece.bytesAll (c.buffer.size + 3) yes).length := by
    rw [h₂.code, hcode₁, hsize₁]
    simp [bigEndian]
  -- the second jump skips the right side
  obtain ⟨htarget₆, houter₆, -, hcode₆⟩ := toList_patchJump (.inl rfl) h₆ hcode₅' hposition
  have hsize : c₃.buffer.size = c.buffer.size + 3 + Piece.sizeAll yes + 3 := by omega
  have hfits := h₅.fits
  rw [hsize₄, hsize] at hfits
  have houter : c₆.outer = c.outer := calc
    c₆.outer = c₅.outer := houter₆
    _ = c₄.outer := h₅.outer
    _ = c₃.outer := houter₄
    _ = c₂.outer := houter₃
    _ = c₁.outer := h₂.outer
    _ = c.outer := houter₁
  refine ⟨houter, ?_, ⟨?_, hfits, by omega⟩, trivial⟩
  · rw [hcode₆, hsize₅, hsize]
    simp [Piece.bytesAll, Piece.bytes, Piece.encodeD_eq (Piece.encode_jump (.inr rfl) (hsize ▸ htarget₄)),
      Piece.encodeD_eq (Piece.encode_jump (.inl rfl) (hsize ▸ hsize₅ ▸ htarget₆))]
  · rw [← hsize₁]
    exact h₂.fits

/-! ### Following the walk -/

/-- Compiling follows the walk: where the step `x` succeeds, the resolution `r` does as well, and what
was appended is the layout of its result. -/
def Realizes {α : Type} (x : Compiling Unit) (r : Resolving α) (layout : α → List Piece) : Prop :=
  ∀ {c c' : Compilation} {w : Walk} {u : Unit}, c.Follows w → w.Sound → Gives x c u c' →
    ∃ a w', r w = some (a, w') ∧ c'.Follows w' ∧ c.Emits c' (layout a)

/-- The same of statements, which also leave their last instruction as the last of the buffer. -/
def RealizesAll (x : Compiling Unit) (r : Resolving (List Command)) : Prop :=
  ∀ {c c' : Compilation} {w : Walk} {u : Unit}, c.Follows w → w.Sound → Gives x c u c' →
    ∃ cs w', r w = some (cs, w') ∧ c'.Follows w' ∧ c.Emits c' (Command.piecesAll cs) ∧
      c.buffer.Ends c'.buffer cs

/-- Two parts in a row, and the instruction that takes what both of them leave. -/
theorem operands_spec {α β : Type} {x y : Compiling Unit} {r : Resolving α} {s : Resolving β}
    {p : α → List Piece} {q : β → List Piece} {op : Opcode} {ns : List Nat} {u : Unit}
    (hc : c.Follows w) (hw : w.Sound) (hx : Realizes x r p)
    (hto : ∀ {a w'}, r w = some (a, w') → w.To w') (hy : Realizes y s q)
    (h : Gives (do x; y; emit op ns) c u c') :
    ∃ a w₁ b w₂, r w = some (a, w₁) ∧ s w₁ = some (b, w₂) ∧ c'.Follows w₂ ∧
      c.Emits c' (p a ++ (q b ++ [.op op ns])) := by
  obtain ⟨_, c₁, h₁, h⟩ := gives_bind.mp h
  obtain ⟨_, c₂, h₂, h₃⟩ := gives_bind.mp h
  obtain ⟨a, w₁, ha, hc₁, hemits₁⟩ := hx hc hw h₁
  obtain ⟨b, w₂, hb, hc₂, hemits₂⟩ := hy hc₁ (hto ha).sound h₂
  obtain ⟨hc', hemits₃, -⟩ := emits_emit hc₂ h₃
  exact ⟨a, w₁, b, w₂, ha, hb, hc', hemits₁.trans (hemits₂.trans hemits₃)⟩

/-! ### Function literals -/

/-- A function literal compiles to the constant of its number when its body compiles to the code of
the resolved body. -/
theorem function_spec {name : Option String} {parameters : List Ident} {body : Block}
    (hbody : RealizesAll body.compile body.resolve) :
    Realizes (function name parameters do body.compile; finishBody)
      (Resolving.function name (parameters.map Ident.name) body.resolve) Term.pieces := by
  intro c c' w u hc hw h
  obtain ⟨c₁, c₃, hparameters, hdo, hconstant⟩ := gives_function.mp h
  obtain ⟨_, c₂, hblock, hfinish⟩ := gives_bind.mp hdo
  have henter : c.enter.Follows { w with scope := w.scope.enclose } := by
    refine ⟨?_, hc.constants, hc.fits⟩
    rw [← hc.scope]
    rfl
  have hsound : Walk.Sound { w with scope := w.scope.enclose } := ⟨hw.dense.enclose, hw.literals⟩
  obtain ⟨w₁, hw₁, hc₁, hbuffer₁, houter₁⟩ := defineAll_spec henter hparameters
  obtain ⟨hto₁, -⟩ := Resolving.defineAll_spec hsound hw₁
  obtain ⟨cs, w₂, hw₂, hc₂, hemits₂, hends⟩ := hbody hc₁ hto₁.sound hblock
  obtain ⟨hto₂, -⟩ := Block.resolve_spec body hto₁.sound hw₂
  have hstart : ∀ op, c₁.buffer.endsWith op = false := by
    intro op
    rw [hbuffer₁]
    rfl
  obtain ⟨hc₃, hemits⟩ := finishBody_spec hc₂ hstart hemits₂ hends hfinish
  -- what is left behind is what was there before, but for the constants
  have hleave : c₃.leave.Follows { w with literals := w₂.literals } := by
    refine ⟨?_, hc₃.constants, hc₃.fits⟩
    have houter := (hto₁.trans hto₂).grows.outer?
    rw [Compilation.leave, hc₃.scope, houter]
    rfl
  have hbuffer : c₃.leave.buffer = c.buffer ∧ c₃.leave.outer = c.outer := by
    simp [Compilation.leave, hemits.outer, houter₁, Compilation.enter]
  have hempty : c₁.buffer = .empty := hbuffer₁
  have hcode : c₃.buffer.code = Command.bodyCode cs := by
    have hlist := hemits.code
    rw [hempty] at hlist
    exact Array.toList_inj.mp (by simpa [Buffer.empty, Buffer.size, Command.bodyCode] using hlist)
  have hfits : Piece.FitsAll 0 (Command.bodyPieces cs) := by
    have hfits := hemits.fits
    rw [hempty] at hfits
    exact hfits
  have hvalue : Value.function (c₃.close name parameters.length).1 =
      (Literal.function name (parameters.map Ident.name) w₂.scope.names cs).value
        w₂.literals.size := by
    simp [Compilation.close, Literal.value, hc₃.constants, Literal.values, hcode, hc₃.scope,
      Scope.size]
  rw [hvalue] at hconstant
  obtain ⟨hc', hemits'⟩ := emitConstant_spec hleave (by rintro _ _ _ _ ⟨⟩; exact hfits) hconstant
  refine ⟨_, _, Resolving.function_eq_some.mpr ⟨w₁, cs, w₂, hw₁, hw₂, rfl, rfl⟩, hc', ?_⟩
  obtain ⟨houter, hcode', hfits'⟩ := hemits'
  rw [hbuffer.1] at hcode' hfits'
  exact ⟨houter.trans hbuffer.2, hcode', hfits'⟩

end Compiling

/-! ### Trees -/

open Compiling

theorem BinaryOp.opcode_operation (op : BinaryOp) : op.operation.opcode = op.opcode := by
  cases op <;> rfl

/-- A term and an instruction behind it are a command, when they are its code. -/
theorem Compiling.emits_command {c c₁ c' : Compilation} {w : Walk} {op : Opcode} {ns : List Nat}
    {t : Term} {d : Command} {u : Unit} (hc₁ : c₁.Follows w) (hemits : c.Emits c₁ t.pieces)
    (h : Gives (emit op ns) c₁ u c') (hd : d.pieces = t.pieces ++ [.op op ns]) (hop : d.final = op) :
    c'.Follows w ∧ c.Emits c' (Command.piecesAll [d]) ∧ c.buffer.Ends c'.buffer [d] := by
  obtain ⟨hc', hemits', hlast⟩ := emits_emit hc₁ h
  refine ⟨hc', ?_, c₁.buffer.size, ?_, ?_⟩
  · rw [Command.piecesAll, List.flatMap_singleton, hd]
    exact hemits.trans hemits'
  · rw [hlast, List.getLast_singleton, hop]
  · rw [hemits'.size, List.getLast_singleton, hop]
    simp [Piece.sizeAll, Piece.size, Nat.add_assoc]

/-- A binding compiles to the code of the resolved one when its value does. -/
theorem Compiling.store_spec {id : Ident} {value : Compiling Unit} {value' : Resolving Term}
    (hvalue : Realizes value value' Term.pieces) :
    RealizesAll (do let s ← define id; value; store s)
      (do let s ← Resolving.define id.name; return [Command.store s (← value')]) := by
  intro c c' w u hc hw h
  obtain ⟨s, c₁, h₁, h⟩ := gives_bind.mp h
  obtain ⟨_, c₂, h₂, h₃⟩ := gives_bind.mp h
  obtain ⟨w₁, hs, hc₁, hbuffer, houter⟩ := define_spec hc h₁
  obtain ⟨hto₁, -⟩ := Resolving.define_spec hw hs
  obtain ⟨t, w₂, ht, hc₂, hemits⟩ := hvalue hc₁ hto₁.sound h₂
  have hemits' : c.Emits c₂ t.pieces := by
    obtain ⟨houter', hcode, hfits⟩ := hemits
    rw [hbuffer] at hcode hfits
    exact ⟨houter'.trans houter, hcode, hfits⟩
  refine ⟨[.store s t], w₂, ?_, ?_⟩
  · exact Resolving.store_eq_some.mpr ⟨s, w₁, hs, t, ht, rfl⟩
  · unfold store at h₃
    split at h₃
    · next hstorage =>
      exact emits_command hc₂ hemits' h₃ (by simp [Command.pieces, Symbol.storePiece, hstorage])
        (by simp [Command.final, hstorage])
    · next hstorage =>
      exact emits_command hc₂ hemits' h₃ (by simp [Command.pieces, Symbol.storePiece, hstorage])
        (by simp [Command.final, hstorage])

mutual

/-- **An expression that compiles also resolves**, and its code is that of the resolved one. -/
theorem Expr.compile_spec (e : Expr) : Realizes e.compile e.resolve Term.pieces := by
  intro c c' w u hc hw h
  cases e with
  | name id =>
    obtain ⟨s, hs, hc', hemits⟩ := load_spec hc h
    refine ⟨.load s, w, ?_, hc', hemits⟩
    exact Expr.resolve_name.mpr ⟨s, (Resolving.symbol_eq_some.mp hs).1, rfl, rfl⟩
  | integer _ n =>
    obtain ⟨hc', hemits⟩ := emitConstant_spec (l := .integer n) hc (by rintro _ _ _ _ ⟨⟩) h
    exact ⟨_, _, rfl, hc', hemits⟩
  | string _ s =>
    obtain ⟨hc', hemits⟩ := emitConstant_spec (l := .string s) hc (by rintro _ _ _ _ ⟨⟩) h
    exact ⟨_, _, rfl, hc', hemits⟩
  | boolean _ b =>
    refine ⟨.boolean b, w, rfl, ?_⟩
    cases b with
    | true =>
      obtain ⟨hc', hemits, -⟩ := emits_emit hc h
      exact ⟨hc', hemits⟩
    | false =>
      obtain ⟨hc', hemits, -⟩ := emits_emit hc h
      exact ⟨hc', hemits⟩
  | unary _ op e =>
    obtain ⟨_, c₁, h₁, h₂⟩ := gives_bind.mp h
    obtain ⟨t, w₁, ht, hc₁, hemits₁⟩ := Expr.compile_spec e hc hw h₁
    obtain ⟨hc', hemits₂, -⟩ := emits_emit hc₁ h₂
    refine ⟨.unary op t, w₁, ?_, hc', hemits₁.trans hemits₂⟩
    exact Expr.resolve_unary.mpr ⟨t, ht, rfl⟩
  | binary _ op l r =>
    rw [Expr.compile] at h
    split at h
    · next hop =>
      -- the right operand of a less-than is compiled first, for a greater-than
      subst hop
      obtain ⟨t₁, w₁, t₂, w₂, ht₁, ht₂, hc', hemits⟩ := operands_spec hc hw (Expr.compile_spec r)
        (fun ht => (Expr.resolve_spec r hw ht).1) (Expr.compile_spec l) h
      refine ⟨.binary .greater t₁ t₂, w₂, ?_, hc', hemits⟩
      exact Expr.resolve_lt.mpr ⟨t₁, w₁, ht₁, t₂, ht₂, rfl⟩
    · next hop =>
      obtain ⟨t₁, w₁, t₂, w₂, ht₁, ht₂, hc', hemits⟩ := operands_spec hc hw (Expr.compile_spec l)
        (fun ht => (Expr.resolve_spec l hw ht).1) (Expr.compile_spec r) h
      rw [← BinaryOp.opcode_operation] at hemits
      refine ⟨.binary op.operation t₁ t₂, w₂, ?_, hc', hemits⟩
      exact (Expr.resolve_binary hop).mpr ⟨t₁, w₁, ht₁, t₂, ht₂, rfl⟩
  | cond _ condition consequence alternative =>
    rw [Expr.compile] at h
    obtain ⟨_, c₁, h₁, h⟩ := gives_bind.mp h
    obtain ⟨m, c₂, h₂, h⟩ := gives_bind.mp h
    obtain ⟨_, c₃, h₃, h⟩ := gives_bind.mp h
    obtain ⟨_, c₄, h₄, h⟩ := gives_bind.mp h
    obtain ⟨n, c₅, h₅, h⟩ := gives_bind.mp h
    obtain ⟨_, c₆, h₆, h⟩ := gives_bind.mp h
    obtain ⟨t, w₁, ht, hc₁, hemits₁⟩ := Expr.compile_spec condition hc hw h₁
    obtain ⟨hto₁, -⟩ := Expr.resolve_spec condition hw ht
    -- what the block ends in is its own, for the instruction before it is a jump
    obtain ⟨hc₂, -, hlast₂⟩ := emits_emit hc₁ (gives_emitJump.mp h₂).2
    obtain ⟨yes, w₂, hyes, hc₃, hemits₃, hends₃⟩ := Block.compile_spec consequence hc₂ hto₁.sound h₃
    obtain ⟨hto₂, -⟩ := Block.resolve_spec consequence hto₁.sound hyes
    obtain ⟨hc₄, hemits₄⟩ := finishBlock_spec hc₃ (endsWith_eq hlast₂) hemits₃ hends₃ h₄
    obtain ⟨hc₅, -, hlast₅⟩ := emits_emit hc₄ (gives_emitJump.mp h₅).2
    obtain ⟨-, _, _, -, -, hpatch⟩ := gives_patchJump.mp h₆
    have hc₆ : c₆.Follows w₂ := by
      subst hpatch
      exact ⟨hc₅.scope, hc₅.constants, hc₅.fits⟩
    have hlast₆ : c₆.buffer.last = c₅.buffer.last := by
      subst hpatch
      exact Buffer.last_overwrite ..
    cases alternative with
    | none =>
      obtain ⟨_, c₇, h₇, h₈⟩ := gives_bind.mp h
      obtain ⟨hc₇, hemits₇, -⟩ := emits_emit hc₆ h₇
      obtain ⟨-, _, _, -, -, rfl⟩ := gives_patchJump.mp h₈
      refine ⟨.cond t yes [], w₂, ?_, ⟨hc₇.scope, hc₇.constants, hc₇.fits⟩,
        hemits₁.trans (emits_branch h₂ hemits₄ h₅ h₆ hemits₇ h₈)⟩
      exact Expr.resolve_cond_none.mpr ⟨t, w₁, ht, yes, hyes, rfl⟩
    | some block =>
      obtain ⟨_, c₇, h₇, h⟩ := gives_bind.mp h
      obtain ⟨_, c₈, h₈, h₉⟩ := gives_bind.mp h
      obtain ⟨no, w₃, hno, hc₇, hemits₇, hends₇⟩ := Block.compile_spec block hc₆ hto₂.sound h₇
      obtain ⟨hc₈, hemits₈⟩ :=
        finishBlock_spec hc₇ (endsWith_eq (hlast₆.trans hlast₅)) hemits₇ hends₇ h₈
      obtain ⟨-, _, _, -, -, rfl⟩ := gives_patchJump.mp h₉
      refine ⟨.cond t yes no, w₃, ?_, ⟨hc₈.scope, hc₈.constants, hc₈.fits⟩,
        hemits₁.trans (emits_branch h₂ hemits₄ h₅ h₆ hemits₈ h₉)⟩
      exact Expr.resolve_cond_some.mpr ⟨t, w₁, ht, yes, w₂, hyes, no, hno, rfl⟩
  | function _ parameters body =>
    exact function_spec (Block.compile_spec body) hc hw h
  | call _ callee arguments =>
    rw [Expr.compile] at h
    split at h
    · obtain ⟨_, _, hthrow, -⟩ := gives_bind.mp h
      exact absurd hthrow not_gives_throw
    · obtain ⟨t, w₁, ts, w₂, ht, hts, hc', hemits⟩ := operands_spec hc hw (Expr.compile_spec callee)
        (fun ht => (Expr.resolve_spec callee hw ht).1) (Expr.compileAll_spec arguments) h
      rw [← Expr.length_resolveAll hts] at hemits
      refine ⟨.call t ts, w₂, ?_, hc', hemits⟩
      exact Expr.resolve_call.mpr ⟨t, w₁, ht, ts, hts, rfl⟩
  | array _ elements =>
    obtain ⟨_, c₁, h₁, h⟩ := gives_bind.mp h
    obtain ⟨_, c₂, h₂, h₃⟩ := gives_bind.mp h
    obtain rfl := gives_checkLength h₁
    obtain ⟨ts, w₁, hts, hc₁, hemits₁⟩ := Expr.compileAll_spec elements hc hw h₂
    obtain ⟨hc', hemits₂, -⟩ := emits_emit hc₁ h₃
    rw [← Expr.length_resolveAll hts] at hemits₂
    refine ⟨.array ts, w₁, ?_, hc', hemits₁.trans hemits₂⟩
    exact Expr.resolve_array.mpr ⟨ts, hts, rfl⟩
  | hash _ pairs =>
    obtain ⟨_, c₁, h₁, h⟩ := gives_bind.mp h
    obtain ⟨_, c₂, h₂, h₃⟩ := gives_bind.mp h
    obtain rfl := gives_checkLength h₁
    obtain ⟨ts, w₁, hts, hc₁, hemits₁⟩ := Expr.compilePairs_spec pairs hc hw h₂
    obtain ⟨hc', hemits₂, -⟩ := emits_emit hc₁ h₃
    rw [← Expr.length_resolvePairs hts] at hemits₂
    refine ⟨.hash ts, w₁, ?_, hc', hemits₁.trans hemits₂⟩
    exact Expr.resolve_hash.mpr ⟨ts, hts, rfl⟩
  | index _ collection key =>
    obtain ⟨t₁, w₁, t₂, w₂, ht₁, ht₂, hc', hemits⟩ := operands_spec hc hw
      (Expr.compile_spec collection) (fun ht => (Expr.resolve_spec collection hw ht).1)
      (Expr.compile_spec key) h
    refine ⟨.index t₁ t₂, w₂, ?_, hc', hemits⟩
    exact Expr.resolve_index.mpr ⟨t₁, w₁, ht₁, t₂, ht₂, rfl⟩
termination_by structural e

theorem Expr.compileAll_spec (es : List Expr) :
    Realizes (Expr.compileAll es) (Expr.resolveAll es) Term.piecesAll := by
  intro c c' w u hc hw h
  cases es with
  | nil =>
    obtain ⟨-, rfl⟩ := gives_pure.mp h
    exact ⟨[], w, rfl, hc, .refl c⟩
  | cons e es =>
    obtain ⟨_, c₁, h₁, h₂⟩ := gives_bind.mp h
    obtain ⟨t, w₁, ht, hc₁, hemits₁⟩ := Expr.compile_spec e hc hw h₁
    obtain ⟨hto₁, -⟩ := Expr.resolve_spec e hw ht
    obtain ⟨ts, w₂, hts, hc₂, hemits₂⟩ := Expr.compileAll_spec es hc₁ hto₁.sound h₂
    refine ⟨t :: ts, w₂, ?_, hc₂, hemits₁.trans hemits₂⟩
    exact Expr.resolveAll_cons.mpr ⟨t, w₁, ht, ts, hts, rfl⟩
termination_by structural es

theorem Expr.compilePairs_spec (ps : List (Expr × Expr)) :
    Realizes (Expr.compilePairs ps) (Expr.resolvePairs ps) Term.piecesAll := by
  intro c c' w u hc hw h
  cases ps with
  | nil =>
    obtain ⟨-, rfl⟩ := gives_pure.mp h
    exact ⟨[], w, rfl, hc, .refl c⟩
  | cons p ps =>
    cases p with
    | mk key value =>
    obtain ⟨_, c₁, h₁, h⟩ := gives_bind.mp h
    obtain ⟨_, c₂, h₂, h₃⟩ := gives_bind.mp h
    obtain ⟨k, w₁, hk, hc₁, hemits₁⟩ := Expr.compile_spec key hc hw h₁
    obtain ⟨hto₁, -⟩ := Expr.resolve_spec key hw hk
    obtain ⟨v, w₂, hv, hc₂, hemits₂⟩ := Expr.compile_spec value hc₁ hto₁.sound h₂
    obtain ⟨hto₂, -⟩ := Expr.resolve_spec value hto₁.sound hv
    obtain ⟨ts, w₃, hts, hc₃, hemits₃⟩ := Expr.compilePairs_spec ps hc₂ hto₂.sound h₃
    refine ⟨k :: v :: ts, w₃, ?_, hc₃, hemits₁.trans (hemits₂.trans hemits₃)⟩
    exact Expr.resolvePairs_cons.mpr ⟨k, w₁, hk, v, w₂, hv, ts, hts, rfl⟩
termination_by structural ps

theorem Block.compile_spec (b : Block) : RealizesAll b.compile b.resolve := by
  cases b with
  | mk _ statements => exact Stmt.compileAll_spec statements
termination_by structural b

theorem Stmt.compile_spec (s : Stmt) : RealizesAll s.compile s.resolve := by
  intro c c' w u hc hw h
  cases s with
  | bind _ id value =>
    -- only a function literal takes the name that it is bound to
    cases value with
    | function _ parameters body =>
      exact store_spec (function_spec (Block.compile_spec body)) hc hw h
    | _ => exact store_spec (Expr.compile_spec _) hc hw h
  | ret _ value =>
    obtain ⟨_, c₁, h₁, h₂⟩ := gives_bind.mp h
    obtain ⟨t, w₁, ht, hc₁, hemits₁⟩ := Expr.compile_spec value hc hw h₁
    refine ⟨[.ret t], w₁, ?_, emits_command hc₁ hemits₁ h₂ rfl rfl⟩
    exact Stmt.resolve_ret.mpr ⟨t, ht, rfl⟩
  | expr _ value =>
    obtain ⟨_, c₁, h₁, h₂⟩ := gives_bind.mp h
    obtain ⟨t, w₁, ht, hc₁, hemits₁⟩ := Expr.compile_spec value hc hw h₁
    refine ⟨[.drop t], w₁, ?_, emits_command hc₁ hemits₁ h₂ rfl rfl⟩
    exact Stmt.resolve_expr.mpr ⟨t, ht, rfl⟩
  | block body => exact Block.compile_spec body hc hw h
termination_by structural s

theorem Stmt.compileAll_spec (ss : List Stmt) :
    RealizesAll (Stmt.compileAll ss) (Stmt.resolveAll ss) := by
  intro c c' w u hc hw h
  cases ss with
  | nil =>
    obtain ⟨-, rfl⟩ := gives_pure.mp h
    exact ⟨[], w, rfl, hc, .refl c, rfl⟩
  | cons s ss =>
    obtain ⟨_, c₁, h₁, h₂⟩ := gives_bind.mp h
    obtain ⟨cs, w₁, hcs, hc₁, hemits₁, hends₁⟩ := Stmt.compile_spec s hc hw h₁
    obtain ⟨hto₁, -⟩ := Stmt.resolve_spec s hw hcs
    obtain ⟨ds, w₂, hds, hc₂, hemits₂, hends₂⟩ := Stmt.compileAll_spec ss hc₁ hto₁.sound h₂
    refine ⟨cs ++ ds, w₂, ?_, hc₂, ?_, hends₁.append hends₂⟩
    · exact Stmt.resolveAll_cons.mpr ⟨cs, w₁, hcs, ds, hds, rfl⟩
    · rw [Command.piecesAll_append]
      exact hemits₁.trans hemits₂
termination_by structural ss

end

end Monkey
