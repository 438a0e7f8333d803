import Monkey.Value

/-!
# Compiled programs

A `Chunk` is what a program compiles to: the code of its top level, and the pool of constants that
this code and the code of all functions in the pool refer to.
-/

namespace Monkey

/-- The code of a program's top level and its pool of constants. -/
structure Chunk where
  code : Code
  constants : Array Value
deriving Inhabited

end Monkey
