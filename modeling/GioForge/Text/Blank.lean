/-!
White space as Unicode defines it, and the two one-sided trims built on it. Every test for a blank
tag, a blank title or a blank line in this library goes through `isBlank`.
-/

namespace GioForge.Text

/-- The characters with the Unicode property `White_Space`. -/
def isBlank (c : Char) : Bool :=
  let n := c.toNat
  (0x09 ≤ n && n ≤ 0x0d) || n == 0x20 || n == 0x85 || n == 0xa0 || n == 0x1680 ||
    (0x2000 ≤ n && n ≤ 0x200a) || n == 0x2028 || n == 0x2029 || n == 0x202f || n == 0x205f ||
    n == 0x3000

def trimStart (cs : List Char) : List Char :=
  cs.dropWhile isBlank

def trimEnd (cs : List Char) : List Char :=
  (cs.reverse.dropWhile isBlank).reverse

/-- A text without a character that is not blank; the empty text is one. -/
def isBlankText (s : String) : Bool :=
  s.toList.all isBlank

end GioForge.Text
