/-!
# Aligned numbers

`alignRight` writes a number into a column of a given width.
-/

namespace Monkey

/-- The decimal digits of a number behind as many characters `fill` as bring it to `width`. A number
with more digits than that is not cut. -/
def alignRight (width : Nat) (fill : Char) (n : Nat) : String :=
  String.ofList ((toString n).toList.leftpad width fill)

end Monkey
