import Monkey.Proofs.Resolution
import Monkey.Proofs.Structured

/-!
# The code of resolved programs

The structured code of resolved trees. A term pushes its value. A block that stands for a value
(`Command.valuePieces`) ends in the term of its final expression, and otherwise in `OpNull`; the body
of a function (`Command.bodyPieces`) ends in a return.

`Literal.value` is the constant that a literal becomes, with the layout of its body as code.
-/

namespace Monkey

/-- The instruction of an operation. -/
def Operation.opcode : Operation → Opcode
  | arith .add => .add
  | arith .sub => .sub
  | arith .mul => .mul
  | arith .div => .div
  | equal => .equal
  | notEqual => .notEqual
  | greater => .greaterThan

/-- The most names that can be kept in a storage. -/
def Storage.limit : Storage → Nat
  | global => maxGlobals
  | frame => maxLocals

/-- The instruction that reads a name. -/
def Storage.loadOpcode : Storage → Opcode
  | global => .getGlobal
  | frame => .getLocal

/-- The instruction that assigns to a name. -/
def Storage.storeOpcode : Storage → Opcode
  | global => .setGlobal
  | frame => .setLocal

/-- The instruction that pushes the value of a symbol. -/
def Symbol.loadPiece (s : Symbol) : Piece :=
  match s.storage with
  | .global => .op .getGlobal [s.slot]
  | .frame => .op .getLocal [s.slot]

/-- The instruction that pops a value into the slot of a symbol. -/
def Symbol.storePiece (s : Symbol) : Piece :=
  match s.storage with
  | .global => .op .setGlobal [s.slot]
  | .frame => .op .setLocal [s.slot]

mutual

/-- The code of a term. -/
def Term.pieces : Term → List Piece
  | .load s => [s.loadPiece]
  | .boolean true => [.op .true []]
  | .boolean false => [.op .false []]
  | .integer i _ => [.op .constant [i]]
  | .string i _ => [.op .constant [i]]
  | .function i _ _ => [.op .constant [i]]
  | .unary op t => t.pieces ++ [.op op.opcode []]
  | .binary op t u => t.pieces ++ (u.pieces ++ [.op op.opcode []])
  | .cond t yes no => t.pieces ++ [.branch (Command.valuePieces yes) (Command.valuePieces no)]
  | .call t ts => t.pieces ++ (Term.piecesAll ts ++ [.op .call [ts.length]])
  | .array ts => Term.piecesAll ts ++ [.op .array [ts.length]]
  | .hash ts => Term.piecesAll ts ++ [.op .hash [ts.length]]
  | .index t u => t.pieces ++ (u.pieces ++ [.op .index []])
termination_by structural t => t

/-- The code of several terms. -/
def Term.piecesAll : List Term → List Piece
  | [] => []
  | t :: ts => t.pieces ++ Term.piecesAll ts
termination_by structural ts => ts

/-- The code of a command. -/
def Command.pieces : Command → List Piece
  | .store s t => t.pieces ++ [s.storePiece]
  | .ret t => t.pieces ++ [.op .returnValue []]
  | .drop t => t.pieces ++ [.op .pop []]
termination_by structural c => c

/-- The code of commands that stand for the value of the last one. -/
def Command.valuePieces : List Command → List Piece
  | [] => [.op .null []]
  | [.drop t] => t.pieces
  | c :: cs => c.pieces ++ Command.valuePieces cs
termination_by structural cs => cs

end

/-- The code of commands that stand for themselves. -/
def Command.piecesAll (cs : List Command) : List Piece := cs.flatMap Command.pieces

/-- The code of commands that are the body of a function. -/
def Command.bodyPieces : List Command → List Piece
  | [] => [.op .ret []]
  | [.drop t] => t.pieces ++ [.op .returnValue []]
  | [.ret t] => t.pieces ++ [.op .returnValue []]
  | c :: cs => c.pieces ++ Command.bodyPieces cs

/-! ### The last command of a block -/

namespace Command

/-- The instruction that a command ends in. -/
def final : Command → Opcode
  | store s _ => match s.storage with
    | .global => .setGlobal
    | .frame => .setLocal
  | ret _ => .returnValue
  | drop _ => .pop

theorem final_eq_pop {c : Command} (h : c.final = .pop) : ∃ t, c = drop t := by
  cases c with
  | store s t => cases hs : s.storage <;> simp [final, hs] at h
  | ret t => cases h
  | drop t => exact ⟨t, rfl⟩

theorem final_eq_returnValue {c : Command} (h : c.final = .returnValue) : ∃ t, c = ret t := by
  cases c with
  | store s t => cases hs : s.storage <;> simp [final, hs] at h
  | ret t => exact ⟨t, rfl⟩
  | drop t => cases h

theorem piecesAll_append (cs ds : List Command) :
    piecesAll (cs ++ ds) = piecesAll cs ++ piecesAll ds := List.flatMap_append

theorem valuePieces_concat_drop (cs : List Command) (t : Term) :
    valuePieces (cs ++ [drop t]) = piecesAll cs ++ t.pieces := by
  induction cs with
  | nil => rfl
  | cons c cs ih =>
    rw [List.cons_append, valuePieces, ih, piecesAll, piecesAll, List.flatMap_cons,
      List.append_assoc]
    simp

theorem valuePieces_of_final {cs : List Command} (h : ∀ c, cs.getLast? = some c → c.final ≠ .pop) :
    valuePieces cs = piecesAll cs ++ [.op .null []] := by
  induction cs with
  | nil => rfl
  | cons c cs ih =>
    have hlast : ∀ d, cs.getLast? = some d → d.final ≠ .pop := by
      intro d hd
      exact h d (by rw [List.getLast?_cons, hd]; rfl)
    rw [valuePieces, ih hlast, piecesAll, piecesAll, List.flatMap_cons, List.append_assoc]
    rintro t rfl rfl
    exact h _ rfl rfl

theorem bodyPieces_concat_drop (cs : List Command) (t : Term) :
    bodyPieces (cs ++ [drop t]) = piecesAll cs ++ (t.pieces ++ [.op .returnValue []]) := by
  induction cs with
  | nil => rfl
  | cons c cs ih =>
    rw [List.cons_append, bodyPieces, ih, piecesAll, piecesAll, List.flatMap_cons,
      List.append_assoc]
    all_goals simp

theorem bodyPieces_concat_ret (cs : List Command) (t : Term) :
    bodyPieces (cs ++ [ret t]) = piecesAll (cs ++ [ret t]) := by
  induction cs with
  | nil => simp [bodyPieces, piecesAll, pieces]
  | cons c cs ih =>
    rw [List.cons_append, bodyPieces, ih, piecesAll, piecesAll, List.flatMap_cons]
    all_goals simp

theorem bodyPieces_of_final {cs : List Command}
    (h : ∀ c, cs.getLast? = some c → c.final ≠ .pop ∧ c.final ≠ .returnValue) :
    bodyPieces cs = piecesAll cs ++ [.op .ret []] := by
  induction cs with
  | nil => rfl
  | cons c cs ih =>
    have hlast : ∀ d, cs.getLast? = some d → d.final ≠ .pop ∧ d.final ≠ .returnValue := by
      intro d hd
      exact h d (by rw [List.getLast?_cons, hd]; rfl)
    rw [bodyPieces, ih hlast, piecesAll, piecesAll, List.flatMap_cons, List.append_assoc]
    · rintro t rfl rfl
      exact (h _ rfl).1 rfl
    · rintro t rfl rfl
      exact (h _ rfl).2 rfl

/-- How the code of a value block ends. -/
theorem valuePieces_cases (cs : List Command) :
    (∃ ds t, cs = ds ++ [drop t] ∧ valuePieces cs = piecesAll ds ++ t.pieces) ∨
      valuePieces cs = piecesAll cs ++ [.op .null []] := by
  by_cases h : ∃ ds t, cs = ds ++ [drop t]
  · obtain ⟨ds, t, rfl⟩ := h
    exact .inl ⟨ds, t, rfl, valuePieces_concat_drop ds t⟩
  · refine .inr (valuePieces_of_final fun c hc hfinal => ?_)
    obtain ⟨t, rfl⟩ := final_eq_pop hfinal
    obtain ⟨ds, rfl⟩ := List.getLast?_eq_some_iff.mp hc
    exact h ⟨ds, t, rfl⟩

/-- How the code of the body of a function ends. -/
theorem bodyPieces_cases (cs : List Command) :
    (∃ ds t, cs = ds ++ [drop t] ∧
      bodyPieces cs = piecesAll ds ++ (t.pieces ++ [.op .returnValue []])) ∨
    (∃ ds t, cs = ds ++ [ret t] ∧
      bodyPieces cs = piecesAll ds ++ (t.pieces ++ [.op .returnValue []])) ∨
    bodyPieces cs = piecesAll cs ++ [.op .ret []] := by
  by_cases hdrop : ∃ ds t, cs = ds ++ [drop t]
  · obtain ⟨ds, t, rfl⟩ := hdrop
    exact .inl ⟨ds, t, rfl, bodyPieces_concat_drop ds t⟩
  by_cases hret : ∃ ds t, cs = ds ++ [ret t]
  · obtain ⟨ds, t, rfl⟩ := hret
    refine .inr (.inl ⟨ds, t, rfl, ?_⟩)
    rw [bodyPieces_concat_ret, piecesAll_append]
    simp [piecesAll, pieces]
  refine .inr (.inr (bodyPieces_of_final fun c hc => ⟨fun hfinal => ?_, fun hfinal => ?_⟩))
  · obtain ⟨t, rfl⟩ := final_eq_pop hfinal
    obtain ⟨ds, rfl⟩ := List.getLast?_eq_some_iff.mp hc
    exact hdrop ⟨ds, t, rfl⟩
  · obtain ⟨t, rfl⟩ := final_eq_returnValue hfinal
    obtain ⟨ds, rfl⟩ := List.getLast?_eq_some_iff.mp hc
    exact hret ⟨ds, t, rfl⟩

end Command

/-! ### Constants -/

/-- The code of a function with the given body. -/
def Command.bodyCode (cs : List Command) : Code := (Piece.bytesAll 0 (Command.bodyPieces cs)).toArray

/-- The constant that the literal of a number becomes. -/
def Literal.value (number : Nat) : Literal → Value
  | .integer n => .integer n
  | .string s => .string s
  | .function name parameters names body =>
    .function ⟨number, Command.bodyCode body, names.size, parameters.length, name⟩

/-- The constants that literals become. -/
def Literal.values (ls : Array Literal) : Array Value := ls.mapIdx Literal.value

theorem Literal.getElem?_values (ls : Array Literal) (i : Nat) :
    (values ls)[i]? = ls[i]?.map (value i) := Array.getElem?_mapIdx

/-- A function among the constants comes from the literal that has its number. -/
theorem Literal.function_mem_values {ls : Array Literal} {f : Function}
    (hf : Value.function f ∈ Literal.values ls) :
    ∃ (i : Nat) (name : Option String) (parameters : List String) (names : Numbering String)
      (body : List Command), ls[i]? = some (.function name parameters names body) ∧
        f = ⟨i, Command.bodyCode body, names.size, parameters.length, name⟩ := by
  obtain ⟨i, hi, hvalue⟩ := Array.mem_mapIdx.mp hf
  have hget : ls[i]? = some ls[i] := Array.getElem?_eq_getElem hi
  cases hl : ls[i] with
  | integer n =>
    rw [hl] at hvalue
    cases hvalue
  | string s =>
    rw [hl] at hvalue
    cases hvalue
  | function name parameters names body =>
    rw [hl] at hvalue hget
    exact ⟨i, name, parameters, names, body, hget, (Value.function.inj hvalue).symm⟩

end Monkey
