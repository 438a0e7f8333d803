import Monkey.Bytecode.Chunk
import Monkey.Bytecode.Encoding
import Monkey.Text.Padding
import Monkey.Text.Quoted
import Monkey.Value.Text

/-!
# Listings of compiled programs

`Code.listing` shows a stream of bytes one instruction a line, with the offset in front. A byte that
is no opcode gets a line of its own without an offset, and an instruction that is cut off at the end
of the stream ends the listing. `Chunk.listing` shows a whole program: its top level, its constants,
and the code of every function among them.
-/

namespace Monkey

/-- The text of an instruction. -/
def instructionText (name : String) (operands : List Nat) : String :=
  name ++ String.join (operands.map fun n => " " ++ toString n)

/-- Appends the listing of `bytes` to `out`, the first of them at the given offset. -/
def appendListing (out : String) (offset : Nat) (bytes : List UInt8) : String :=
  match bytes with
  | [] => out
  | b :: rest =>
    match Opcode.lookup b with
    | .error e => appendListing (out ++ s!"ERROR: {e.message}\n") (offset + 1) rest
    | .ok op =>
      match op.layout.decode rest with
      | .ok (operands, n) =>
        let line := alignRight 4 '0' offset ++ " " ++ instructionText op.name operands ++ "\n"
        appendListing (out ++ line) (offset + 1 + n) (rest.drop n)
      | .error e => out ++ alignRight 4 '0' offset ++ s!" ERROR: {e.message}\n"
termination_by bytes.length
decreasing_by
  all_goals
    simp only [List.length_cons, List.length_drop]
    omega

/-- The listing of a stream of instructions. -/
def Code.listing (code : Code) : String := appendListing "" 0 code.toList

/-- The line of a constant. -/
def constantLine (index : Nat) (v : Value) : String :=
  let text :=
    match v with
    | .string s => quoted s
    | _ => v.text
  alignRight 4 '0' index ++ " " ++ v.type.name ++ " " ++ text ++ "\n"

/-- The listing of a function among the constants. -/
def functionListing (index : Nat) (f : Function) : String :=
  let name := f.name.getD "<anonymous>"
  s!"\n== constant {index} {name} (params: {f.parameters}, locals: {f.locals}) ==\n"
    ++ Code.listing f.code

/-- The listing of a program. -/
def Chunk.listing (chunk : Chunk) : String :=
  let main := "== main ==\n" ++ Code.listing chunk.code
  if chunk.constants.isEmpty then main
  else
    let constants := chunk.constants.toList.zipIdx
    let lines := constants.map fun (v, i) => constantLine i v
    let functions := constants.map fun (v, i) =>
      match v with
      | .function f => functionListing i f
      | _ => ""
    main ++ "\n== constants ==\n" ++ String.join lines ++ String.join functions

end Monkey
