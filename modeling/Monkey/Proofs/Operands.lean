import Monkey.Proofs.Generation
import Monkey.Proofs.Scoped

/-!
# Operands are in range

The instructions of well-scoped code only name constants, global slots and local slots that there
are (`Term.plain_pieces`, `Command.plain_bodyPieces`). `Piece.Each` says something of all instructions
of a piece but the jumps of its branches, however deep they stand.
-/

namespace Monkey

/-! ### Instructions inside pieces -/

namespace Piece

mutual

/-- All instructions of a piece, its branches included, have a property. -/
def Each (P : Opcode → List Nat → Prop) : Piece → Prop
  | .op o ns => P o ns
  | .branch yes no => EachAll P yes ∧ EachAll P no
  | .skip no => EachAll P no
termination_by structural p => p

/-- All instructions of several pieces have a property. -/
def EachAll (P : Opcode → List Nat → Prop) : List Piece → Prop
  | [] => True
  | p :: ps => p.Each P ∧ EachAll P ps
termination_by structural ps => ps

end

@[simp] theorem eachAll_append {P : Opcode → List Nat → Prop} {ps qs : List Piece} :
    EachAll P (ps ++ qs) ↔ EachAll P ps ∧ EachAll P qs := by
  induction ps with
  | nil => simp [EachAll]
  | cons p ps ih => simp [EachAll, ih, and_assoc]

theorem eachAll_op {P : Opcode → List Nat → Prop} {op : Opcode} {ns : List Nat} :
    EachAll P [.op op ns] ↔ P op ns := by
  simp [EachAll, Each]

mutual

theorem Each.mono {P Q : Opcode → List Nat → Prop} (hPQ : ∀ op ns, P op ns → Q op ns) (p : Piece)
    (h : p.Each P) : p.Each Q := by
  cases p with
  | op o ns => exact hPQ o ns h
  | branch yes no => exact ⟨EachAll.mono hPQ yes h.1, EachAll.mono hPQ no h.2⟩
  | skip no => exact EachAll.mono hPQ no h
termination_by structural p

theorem EachAll.mono {P Q : Opcode → List Nat → Prop} (hPQ : ∀ op ns, P op ns → Q op ns)
    (ps : List Piece) (h : EachAll P ps) : EachAll Q ps := by
  cases ps with
  | nil => trivial
  | cons p ps => exact ⟨Each.mono hPQ p h.1, EachAll.mono hPQ ps h.2⟩
termination_by structural ps

end

end Piece

/-- Whether an instruction goes on at an offset that it names. -/
def Opcode.isJump : Opcode → Bool
  | .jump | .jumpNotTruthy => Bool.true
  | _ => Bool.false

/-- The operands of an instruction name a constant, a global slot or a local slot that there is. Only
inside functions there are local slots, and only outside of them global slots are assigned. -/
def Opcode.InRange (constants globals : Nat) (locals? : Option Nat) (op : Opcode)
    (operands : List Nat) : Prop :=
  match op with
  | .constant => ∃ n < constants, operands = [n]
  | .getGlobal => ∃ n < globals, operands = [n]
  | .setGlobal => locals? = none ∧ ∃ n < globals, operands = [n]
  | .getLocal | .setLocal => ∃ locals, locals? = some locals ∧ ∃ n < locals, operands = [n]
  | _ => True

/-! ### Scoped code is plain -/

namespace Visible

/-- An instruction that is no jump, and has operands that are in range. -/
def Plain (v : Visible) (op : Opcode) (operands : List Nat) : Prop :=
  op.isJump = false ∧
    op.InRange v.literals.size v.globals.size (v.locals?.map Numbering.size) operands

end Visible

open Piece

variable {v : Visible}

theorem Symbol.plain_loadPiece {s : Symbol} (hv : v.Dense) (h : s.In v.globals v.locals?) :
    s.loadPiece.Each v.Plain := by
  unfold Symbol.In at h
  unfold Symbol.loadPiece
  cases hs : s.storage with
  | global =>
    rw [hs] at h
    exact ⟨rfl, s.slot, hv.globals.lt_size h, rfl⟩
  | frame =>
    rw [hs] at h
    obtain ⟨ns, hns, hslot⟩ := h
    exact ⟨rfl, ns.size, by rw [hns]; rfl, s.slot, (hv.locals? ns hns).lt_size hslot, rfl⟩

theorem Symbol.plain_storePiece {s : Symbol} (hv : v.Dense) (h : s.In v.globals v.locals?)
    (hglobal : s.storage = .global ↔ v.locals? = none) : s.storePiece.Each v.Plain := by
  unfold Symbol.In at h
  unfold Symbol.storePiece
  cases hs : s.storage with
  | global =>
    rw [hs] at h
    exact ⟨rfl, by rw [hglobal.mp hs]; rfl, s.slot, hv.globals.lt_size h, rfl⟩
  | frame =>
    rw [hs] at h
    obtain ⟨ns, hns, hslot⟩ := h
    exact ⟨rfl, ns.size, by rw [hns]; rfl, s.slot, (hv.locals? ns hns).lt_size hslot, rfl⟩

/-- A constant is in range when something has its number. -/
theorem plain_constant {l : Literal} {i : Nat} (h : v.literals[i]? = some l) :
    EachAll v.Plain [.op .constant [i]] :=
  eachAll_op.mpr ⟨rfl, i, (Array.getElem?_eq_some_iff.mp h).1, rfl⟩

theorem Operation.plain_opcode (op : Operation) : v.Plain op.opcode [] := by
  cases op with
  | arith op => cases op <;> exact ⟨rfl, trivial⟩
  | equal => exact ⟨rfl, trivial⟩
  | notEqual => exact ⟨rfl, trivial⟩
  | greater => exact ⟨rfl, trivial⟩

mutual

/-- **The instructions of a scoped term are plain.** -/
theorem Term.plain_pieces (hv : v.Dense) (t : Term) (h : t.Scoped v) :
    EachAll v.Plain t.pieces := by
  cases t with
  | load s => exact ⟨s.plain_loadPiece hv h, trivial⟩
  | boolean b => cases b <;> exact eachAll_op.mpr ⟨rfl, trivial⟩
  | integer i n => exact plain_constant h
  | string i s => exact plain_constant h
  | function i k name =>
    obtain ⟨_, _, _, hi, -⟩ := h
    exact plain_constant hi
  | unary op t =>
    refine eachAll_append.mpr ⟨Term.plain_pieces hv t h, eachAll_op.mpr ?_⟩
    cases op <;> exact ⟨rfl, trivial⟩
  | binary op t u =>
    rw [Term.pieces, eachAll_append, eachAll_append, eachAll_op]
    exact ⟨Term.plain_pieces hv t h.1, Term.plain_pieces hv u h.2, op.plain_opcode⟩
  | cond t yes no =>
    rw [Term.pieces, eachAll_append]
    exact ⟨Term.plain_pieces hv t h.1, ⟨Command.plain_valuePieces hv yes h.2.1,
      Command.plain_valuePieces hv no h.2.2⟩, trivial⟩
  | call t ts =>
    rw [Term.pieces, eachAll_append, eachAll_append, eachAll_op]
    exact ⟨Term.plain_pieces hv t h.1, Term.plain_piecesAll hv ts h.2, rfl, trivial⟩
  | array ts =>
    rw [Term.pieces, eachAll_append, eachAll_op]
    exact ⟨Term.plain_piecesAll hv ts h, rfl, trivial⟩
  | hash ts =>
    rw [Term.pieces, eachAll_append, eachAll_op]
    exact ⟨Term.plain_piecesAll hv ts h, rfl, trivial⟩
  | index t u =>
    rw [Term.pieces, eachAll_append, eachAll_append, eachAll_op]
    exact ⟨Term.plain_pieces hv t h.1, Term.plain_pieces hv u h.2, rfl, trivial⟩
termination_by structural t

theorem Term.plain_piecesAll (hv : v.Dense) (ts : List Term) (h : Term.ScopedAll v ts) :
    EachAll v.Plain (Term.piecesAll ts) := by
  cases ts with
  | nil => trivial
  | cons t ts =>
    rw [Term.piecesAll, eachAll_append]
    exact ⟨Term.plain_pieces hv t h.1, Term.plain_piecesAll hv ts h.2⟩
termination_by structural ts

theorem Command.plain_pieces (hv : v.Dense) (c : Command) (h : c.Scoped v) :
    EachAll v.Plain c.pieces := by
  cases c with
  | store s t =>
    rw [Command.pieces, eachAll_append]
    exact ⟨Term.plain_pieces hv t h.2.2, s.plain_storePiece hv h.1 h.2.1, trivial⟩
  | ret t =>
    rw [Command.pieces, eachAll_append, eachAll_op]
    exact ⟨Term.plain_pieces hv t h, rfl, trivial⟩
  | drop t =>
    rw [Command.pieces, eachAll_append, eachAll_op]
    exact ⟨Term.plain_pieces hv t h, rfl, trivial⟩
termination_by structural c

theorem Command.plain_valuePieces (hv : v.Dense) (cs : List Command)
    (h : Command.ScopedAll v cs) : EachAll v.Plain (Command.valuePieces cs) := by
  -- the cases of `valuePieces`: nothing, a final expression, and a command before others
  cases cs with
  | nil => exact eachAll_op.mpr ⟨rfl, trivial⟩
  | cons c cs =>
    have hrest := Command.plain_valuePieces hv cs h.2
    have hfirst := Command.plain_pieces hv c h.1
    have happend : EachAll v.Plain (c.pieces ++ Command.valuePieces cs) :=
      eachAll_append.mpr ⟨hfirst, hrest⟩
    cases c with
    | drop t =>
      cases cs with
      | nil => exact (eachAll_append.mp hfirst).1
      | cons d ds => exact happend
    | store s t => exact happend
    | ret t => exact happend
termination_by structural cs

end

/-- The instructions of scoped commands are plain. -/
theorem Command.plain_piecesAll (hv : v.Dense) (cs : List Command) (h : Command.ScopedAll v cs) :
    EachAll v.Plain (Command.piecesAll cs) := by
  induction cs with
  | nil => trivial
  | cons c cs ih =>
    rw [Command.piecesAll, List.flatMap_cons, eachAll_append]
    exact ⟨Command.plain_pieces hv c h.1, ih h.2⟩

/-- The instructions of the body of a function are plain. -/
theorem Command.plain_bodyPieces (hv : v.Dense) (cs : List Command) (h : Command.ScopedAll v cs) :
    EachAll v.Plain (Command.bodyPieces cs) := by
  have hall := Command.plain_piecesAll hv cs h
  rcases Command.bodyPieces_cases cs with ⟨ds, t, rfl, hpieces⟩ | ⟨ds, t, rfl, hpieces⟩ | hpieces
  · rw [Command.piecesAll_append, eachAll_append] at hall
    have ht := hall.2
    rw [Command.piecesAll, List.flatMap_singleton, Command.pieces, eachAll_append] at ht
    rw [hpieces, eachAll_append, eachAll_append, eachAll_op]
    exact ⟨hall.1, ht.1, rfl, trivial⟩
  · rw [Command.piecesAll_append, eachAll_append] at hall
    rw [hpieces, eachAll_append]
    refine ⟨hall.1, ?_⟩
    simpa [Command.piecesAll, Command.pieces] using hall.2
  · rw [hpieces, eachAll_append, eachAll_op]
    exact ⟨hall, rfl, trivial⟩

end Monkey
