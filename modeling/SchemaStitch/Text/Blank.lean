/-!
Blank text: the characters with the Unicode property White_Space, and text without them at its ends.
A byte order mark and a zero width space do not have the property, so they are not trimmed.
-/
namespace SchemaStitch.Text

/-- The characters with the Unicode property White_Space. -/
def isBlank (c : Char) : Bool :=
  let n := c.toNat
  (0x9 ≤ n && n ≤ 0xD) || n == 0x20 || n == 0x85 || n == 0xA0 || n == 0x1680 ||
  (0x2000 ≤ n && n ≤ 0x200A) || n == 0x2028 || n == 0x2029 || n == 0x202F || n == 0x205F ||
  n == 0x3000

/-- A text without its blank ends, on characters. -/
def trimChars (cs : List Char) : List Char :=
  ((cs.dropWhile isBlank).reverse.dropWhile isBlank).reverse

/-- A text without its blank ends. -/
def trim (s : String) : String := String.ofList (trimChars s.toList)

end SchemaStitch.Text
