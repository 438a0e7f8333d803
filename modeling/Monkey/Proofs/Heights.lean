import Monkey.Proofs.Effects
import Monkey.Proofs.Operands

/-!
# Stack heights

The height that the stack of a frame has at an instruction does not depend on the way that led
there. `Piece.Takes h p h'` says that the piece `p` takes a stack of height `h` to one of height `h'`,
with both sides of a branch meeting at `h'`, and that no instruction in it finds too few operands. The
code of a term makes the stack one higher, and that of a command leaves it as high as it was
(`Term.takes_pieces`), also behind a return, where no run comes by.
-/

namespace Monkey

namespace Piece

mutual

/-- The piece takes a stack of the first height to one of the second. -/
def Takes (h : Nat) : Piece → Nat → Prop
  | .op o ns, h' => o.pops (ns.headD 0) ≤ h ∧ h' + o.pops (ns.headD 0) = h + o.pushes
  | .branch yes no, h' => 1 ≤ h ∧ TakesAll (h - 1) yes h' ∧ TakesAll (h - 1) no h'
  | .skip _, h' => h' = h
termination_by structural p => p

/-- The pieces take a stack of the first height to one of the second. -/
def TakesAll (h : Nat) : List Piece → Nat → Prop
  | [], h' => h' = h
  | p :: ps, h' => ∃ h₁, p.Takes h h₁ ∧ TakesAll h₁ ps h'
termination_by structural ps => ps

end

theorem takesAll_append {h h' : Nat} {ps qs : List Piece} :
    TakesAll h (ps ++ qs) h' ↔ ∃ h₁, TakesAll h ps h₁ ∧ TakesAll h₁ qs h' := by
  induction ps generalizing h with
  | nil => simp [TakesAll]
  | cons p ps ih =>
    simp only [List.cons_append, TakesAll, ih]
    constructor
    · rintro ⟨h₁, hp, h₂, hps, hqs⟩
      exact ⟨h₂, ⟨h₁, hp, hps⟩, hqs⟩
    · rintro ⟨h₂, ⟨h₁, hp, hps⟩, hqs⟩
      exact ⟨h₁, hp, h₂, hps, hqs⟩

/-- Pieces before an instruction. -/
theorem TakesAll.concat {h h₁ h' : Nat} {ps : List Piece} {op : Opcode} {ns : List Nat}
    (hps : TakesAll h ps h₁) (hpops : op.pops (ns.headD 0) ≤ h₁)
    (hheight : h' + op.pops (ns.headD 0) = h₁ + op.pushes) : TakesAll h (ps ++ [.op op ns]) h' :=
  takesAll_append.mpr ⟨h₁, hps, h', ⟨hpops, hheight⟩, rfl⟩

theorem TakesAll.op {h h' : Nat} {op : Opcode} {ns : List Nat} (hpops : op.pops (ns.headD 0) ≤ h)
    (hheight : h' + op.pops (ns.headD 0) = h + op.pushes) : TakesAll h [.op op ns] h' :=
  ⟨h', ⟨hpops, hheight⟩, rfl⟩

theorem TakesAll.append {h h₁ h₂ : Nat} {ps qs : List Piece} (hps : TakesAll h ps h₁)
    (hqs : TakesAll h₁ qs h₂) : TakesAll h (ps ++ qs) h₂ := takesAll_append.mpr ⟨h₁, hps, hqs⟩

end Piece

open Piece

theorem Operation.pops_opcode (op : Operation) (n : Nat) : op.opcode.pops n = 2 := by
  cases op with
  | arith op => cases op <;> rfl
  | _ => rfl

theorem Operation.pushes_opcode (op : Operation) : op.opcode.pushes = 1 := by
  cases op with
  | arith op => cases op <;> rfl
  | _ => rfl

mutual

/-- **A term makes the stack one higher.** -/
theorem Term.takes_pieces (t : Term) (h : Nat) : TakesAll h t.pieces (h + 1) := by
  cases t with
  | load s =>
    rw [Term.pieces, Symbol.loadPiece]
    cases s.storage <;> exact .op (Nat.zero_le _) rfl
  | boolean b => cases b <;> exact .op (Nat.zero_le _) rfl
  | integer i n => exact .op (Nat.zero_le _) rfl
  | string i s => exact .op (Nat.zero_le _) rfl
  | function i k name => exact .op (Nat.zero_le _) rfl
  | unary op t =>
    refine (Term.takes_pieces t h).concat ?_ ?_
    · cases op <;> exact Nat.le_add_left 1 h
    · cases op <;> rfl
  | binary op t u =>
    refine (Term.takes_pieces t h).append ((Term.takes_pieces u (h + 1)).concat ?_ ?_)
    · rw [op.pops_opcode]
      exact Nat.le_add_left 2 h
    · rw [op.pops_opcode, op.pushes_opcode]
  | cond t yes no =>
    refine (Term.takes_pieces t h).append ⟨h + 1, ⟨Nat.le_add_left 1 h, ?_, ?_⟩, rfl⟩
    · exact Command.takes_valuePieces yes h
    · exact Command.takes_valuePieces no h
  | call t ts =>
    refine (Term.takes_pieces t h).append ((Term.takes_piecesAll ts (h + 1)).concat ?_ ?_)
    · simp only [List.headD_cons, Opcode.pops]
      omega
    · simp only [List.headD_cons, Opcode.pops, Opcode.pushes]
      omega
  | array ts =>
    refine (Term.takes_piecesAll ts h).concat (Nat.le_add_left _ h) ?_
    simp only [List.headD_cons, Opcode.pops, Opcode.pushes]
    omega
  | hash ts =>
    refine (Term.takes_piecesAll ts h).concat (Nat.le_add_left _ h) ?_
    simp only [List.headD_cons, Opcode.pops, Opcode.pushes]
    omega
  | index t u =>
    exact (Term.takes_pieces t h).append
      ((Term.takes_pieces u (h + 1)).concat (Nat.le_add_left 2 h) rfl)
termination_by structural t

/-- Terms make the stack as much higher as there are of them. -/
theorem Term.takes_piecesAll (ts : List Term) (h : Nat) :
    TakesAll h (Term.piecesAll ts) (h + ts.length) := by
  cases ts with
  | nil => rfl
  | cons t ts =>
    have hts := Term.takes_piecesAll ts (h + 1)
    rw [List.length_cons, Nat.add_comm ts.length, ← Nat.add_assoc]
    exact (Term.takes_pieces t h).append hts
termination_by structural ts

/-- A command leaves the stack as high as it was. -/
theorem Command.takes_pieces (c : Command) (h : Nat) : TakesAll h c.pieces h := by
  cases c with
  | store s t =>
    rw [Command.pieces, Symbol.storePiece]
    cases s.storage <;> exact (Term.takes_pieces t h).concat (Nat.le_add_left 1 h) rfl
  | ret t => exact (Term.takes_pieces t h).concat (Nat.le_add_left 1 h) rfl
  | drop t => exact (Term.takes_pieces t h).concat (Nat.le_add_left 1 h) rfl
termination_by structural c

/-- A block that stands for a value makes the stack one higher. -/
theorem Command.takes_valuePieces (cs : List Command) (h : Nat) :
    TakesAll h (Command.valuePieces cs) (h + 1) := by
  cases cs with
  | nil => exact .op (Nat.zero_le _) rfl
  | cons c cs =>
    have happend : TakesAll h (c.pieces ++ Command.valuePieces cs) (h + 1) :=
      (Command.takes_pieces c h).append (Command.takes_valuePieces cs h)
    cases c with
    | drop t =>
      cases cs with
      | nil => exact Term.takes_pieces t h
      | cons d ds => exact happend
    | store s t => exact happend
    | ret t => exact happend
termination_by structural cs

end

/-- Commands leave the stack as high as it was. -/
theorem Command.takes_piecesAll (cs : List Command) (h : Nat) :
    TakesAll h (Command.piecesAll cs) h := by
  induction cs with
  | nil => rfl
  | cons c cs ih => exact (c.takes_pieces h).append ih

/-- The body of a function leaves the stack as high as it was. -/
theorem Command.takes_bodyPieces (cs : List Command) (h : Nat) :
    TakesAll h (Command.bodyPieces cs) h := by
  have hreturn (t : Term) : TakesAll h (t.pieces ++ [.op .returnValue []]) h :=
    (t.takes_pieces h).concat (Nat.le_add_left 1 h) rfl
  rcases Command.bodyPieces_cases cs with ⟨ds, t, -, hpieces⟩ | ⟨ds, t, -, hpieces⟩ | hpieces
  · rw [hpieces]
    exact (takes_piecesAll ds h).append (hreturn t)
  · rw [hpieces]
    exact (takes_piecesAll ds h).append (hreturn t)
  · rw [hpieces]
    exact (takes_piecesAll cs h).concat (Nat.zero_le _) rfl

end Monkey
