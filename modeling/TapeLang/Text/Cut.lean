/-! Cutting a text to a number of bytes of UTF-8. -/

namespace TapeLang.Text

/-- What stands for a character that is cut in two. -/
def replacement : Char := Char.ofNat 0xFFFD

/-- The characters in front that fit into a number of bytes, and the replacement for one that fits
only in part. -/
def cutTo : Nat → List Char → List Char
  | _, [] => []
  | 0, _ => []
  | room + 1, c :: rest =>
    if c.utf8Size ≤ room + 1 then c :: cutTo (room + 1 - c.utf8Size) rest else [replacement]

end TapeLang.Text
