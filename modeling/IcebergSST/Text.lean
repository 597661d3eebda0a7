import Mathlib.Data.List.DropRight
import Mathlib.Tactic

/-!
# Strings as the source reads them

`isSpace` is the set of characters `str.isspace` and the `\s` of a pattern agree on,
and `strip` removes them at both ends.
-/

namespace IcebergSST

def isSpace (c : Char) : Bool :=
  let n := c.toNat
  (0x09 ≤ n && n ≤ 0x0d) || (0x1c ≤ n && n ≤ 0x20) || n = 0x85 || n = 0xa0 || n = 0x1680 ||
    (0x2000 ≤ n && n ≤ 0x200a) || n = 0x2028 || n = 0x2029 || n = 0x202f || n = 0x205f ||
    n = 0x3000

def strip (s : String) : String :=
  String.ofList ((s.toList.dropWhile isSpace).rdropWhile isSpace)

end IcebergSST
