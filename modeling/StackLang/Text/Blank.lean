import StackLang.Text.Range

namespace StackLang.Text

def blankRanges : Ranges :=
  #[(0x85, 0x85), (0xa0, 0xa0), (0x1680, 0x1680), (0x2000, 0x200a), (0x2028, 0x2029),
    (0x202f, 0x202f), (0x205f, 0x205f), (0x3000, 0x3000)]

def isBlank (c : Char) : Bool :=
  let n := c.toNat
  if n < 0x80 then n == 0x20 || (0x9 ≤ n && n ≤ 0xd) || (0x1c ≤ n && n ≤ 0x1f)
  else blankRanges.contains n

/-- A text without the blanks at its two ends. -/
def trim (s : List Char) : List Char :=
  ((s.dropWhile isBlank).reverse.dropWhile isBlank).reverse

end StackLang.Text
