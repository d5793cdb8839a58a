import Disasm6502.Text.Bytes

/-!
Positional numerals in lowercase digits. `fixed base width n` writes the last `width` digits of `n`
and `digitCount base n` is the least positive width that loses nothing, so a number without padding
is `fixed base (digitCount base n) n` and zero padding only enlarges the width.
-/

namespace Disasm6502.Numeral

/-- The byte for a digit value below 36. -/
def digit (d : Nat) : UInt8 := UInt8.ofNat (if d < 10 then 48 + d else 87 + d)

/-- The last `width` digits of `n` in front of a text. -/
def fixedBefore (base : Nat) (text : Bytes) : (width n : Nat) → Bytes
  | 0, _ => text
  | width + 1, n => fixedBefore base (digit (n % base) :: text) width (n / base)

/-- The last `width` digits of `n`, most significant first. -/
def fixed (base width n : Nat) : Bytes := fixedBefore base [] width n

/-- The number of digits of `n`, given that `n` has at most `fuel + 1` of them. -/
def countFrom (base : Nat) : (fuel n : Nat) → Nat
  | 0, _ => 1
  | fuel + 1, n => if n < base then 1 else countFrom base fuel (n / base) + 1

/-- The number of digits of `n`; zero has one. No base needs more digits than base two. -/
def digitCount (base n : Nat) : Nat := countFrom base n.log2 n

/-- A number with leading zeros up to `width` digits; a longer one is written in full. -/
def padded (base width n : Nat) : Bytes := fixed base (max width (digitCount base n)) n

/-- As `padded`, and a minus sign takes one of the `width` places. -/
def signed (base width : Nat) : Int → Bytes
  | .ofNat n => padded base width n
  | .negSucc n => 45 :: padded base (width - 1) (n + 1)

def decimal (n : Nat) : Bytes := padded 10 0 n

def integer (n : Int) : Bytes := signed 10 0 n

def hex (width n : Nat) : Bytes := padded 16 width n

def signedHex (width : Nat) (n : Int) : Bytes := signed 16 width n

theorem fixedBefore_eq (base : Nat) (text : Bytes) (width n : Nat) :
    fixedBefore base text width n = fixed base width n ++ text := by
  induction width generalizing text n with
  | zero => rfl
  | succ width ih => rw [fixed, fixedBefore, fixedBefore, ih, ih [_]]; simp

@[simp] theorem fixed_zero (base n : Nat) : fixed base 0 n = [] := rfl

theorem fixed_succ (base width n : Nat) :
    fixed base (width + 1) n = fixed base width (n / base) ++ [digit (n % base)] :=
  fixedBefore_eq base [digit (n % base)] width (n / base)

@[simp] theorem length_fixed (base width n : Nat) : (fixed base width n).length = width := by
  induction width generalizing n with
  | zero => rfl
  | succ width ih => simp [fixed_succ, ih]

theorem countFrom_pos (base fuel n : Nat) : 0 < countFrom base fuel n := by
  cases fuel with
  | zero => simp [countFrom]
  | succ fuel => simp only [countFrom]; split <;> omega

theorem digitCount_pos (base n : Nat) : 0 < digitCount base n := countFrom_pos ..

@[simp] theorem length_padded (base width n : Nat) :
    (padded base width n).length = max width (digitCount base n) := length_fixed ..

end Disasm6502.Numeral
