/-!
White space as the Unicode property `White_Space` defines it. The zero width space, the byte order
mark and the Mongolian vowel separator are not in it.
-/

namespace Disasm6502.Text

def isBlankChar (c : Char) : Bool :=
  let n := c.toNat
  (0x09 ≤ n && n ≤ 0x0D) || n = 0x20 || n = 0x85 || n = 0xA0 || n = 0x1680 ||
    (0x2000 ≤ n && n ≤ 0x200A) || n = 0x2028 || n = 0x2029 || n = 0x202F || n = 0x205F || n = 0x3000

/-- Nothing but white space; the empty text is blank. -/
def isBlank (s : String) : Bool := s.toList.all isBlankChar

end Disasm6502.Text
