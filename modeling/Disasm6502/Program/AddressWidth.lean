/-!
The width of the address column. It is the number of hexadecimal digits that addresses below `top`
need, the least `w` with `top ≤ 16 ^ w`, computed at the precision of a binary logarithm with a
53-bit significand: there a number less than 11.5 units in the 52nd binary place above a power
counts as the power. Below `2 ^ 52` no integer lies in that gap and the width is exact.
-/

namespace Disasm6502

/-- Two to the number of bits of the significand. -/
def precision : Nat := Nat.pow 2 53

/-- At working precision `top` is at most `16 ^ w`. -/
def FitsWidth (top w : Nat) : Prop := top * precision < Nat.pow 16 w * (precision + 23)

instance (top w : Nat) : Decidable (FitsWidth top w) :=
  inferInstanceAs (Decidable (_ < _))

/-- The least width that `top` fits; its binary logarithm leaves only two candidates. -/
def addressWidth (top : Nat) : Nat :=
  if FitsWidth top (top.log2 / 4) then top.log2 / 4 else top.log2 / 4 + 1

end Disasm6502
