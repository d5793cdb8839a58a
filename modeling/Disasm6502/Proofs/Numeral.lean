import Mathlib.Algebra.Order.Ring.Nat
import Disasm6502.Text.Numeral

/-!
Reading numerals back. `value` is the number that a row of digits stands for, `value_fixed` says
that the last digits of a number stand for its remainder, and `hex_eq_fixed` that a padded
hexadecimal numeral of a number that fits has exactly the digits it is padded to. Numerals of one
width sort like their numbers (`fixed_lt_fixed`).
-/

namespace Disasm6502.Numeral

/-- The value of a digit byte. -/
def digitValue (b : UInt8) : Nat := if b.toNat < 58 then b.toNat - 48 else b.toNat - 87

/-- The number that digits stand for, most significant first. -/
def value (base : Nat) (text : Bytes) : Nat := text.foldl (fun n b => n * base + digitValue b) 0

/-- Is this one of the bytes that hexadecimal numerals consist of? -/
def isHexDigit (b : UInt8) : Bool := (48 ≤ b && b ≤ 57) || (97 ≤ b && b ≤ 102)

theorem digitValue_digit {d : Nat} (h : d < 36) : digitValue (digit d) = d := by
  unfold digit digitValue
  rw [UInt8.toNat_ofNat']
  split <;> split <;> omega

theorem isHexDigit_digit {d : Nat} (h : d < 16) : isHexDigit (digit d) = true := by
  have table : ∀ d < 16, isHexDigit (digit d) = true := by decide
  exact table d h

theorem value_concat (base : Nat) (text : Bytes) (b : UInt8) :
    value base (text ++ [b]) = value base text * base + digitValue b := by
  simp [value]

theorem value_fixed {base : Nat} (hpos : 0 < base) (hbase : base ≤ 36) (width n : Nat) :
    value base (fixed base width n) = n % base ^ width := by
  induction width generalizing n with
  | zero => simp [value, Nat.mod_one]
  | succ width ih =>
    have hdigit : n % base < 36 := by
      have := Nat.mod_lt n hpos
      omega
    rw [fixed_succ, value_concat, ih, digitValue_digit hdigit, Nat.pow_succ', Nat.mod_mul,
      Nat.mul_comm, Nat.add_comm]

/-- The last digits of a number only depend on the remainder. -/
theorem fixed_mod (base width n : Nat) :
    fixed base width (n % base ^ width) = fixed base width n := by
  induction width generalizing n with
  | zero => rfl
  | succ width ih =>
    have hlow : n % base ^ (width + 1) % base = n % base :=
      Nat.mod_mod_of_dvd n (Dvd.intro_left (base ^ width) rfl)
    have hhigh : n % base ^ (width + 1) / base = n / base % base ^ width := by
      rw [Nat.pow_succ', Nat.mod_mul_right_div_self]
    rw [fixed_succ, fixed_succ, hlow, hhigh, ih]

theorem exists_digit_of_mem_fixed {base width n : Nat} (hpos : 0 < base) {b : UInt8}
    (h : b ∈ fixed base width n) : ∃ d < base, b = digit d := by
  induction width generalizing n with
  | zero => cases h
  | succ width ih =>
    rw [fixed_succ, List.mem_append, List.mem_singleton] at h
    rcases h with h | rfl
    · exact ih h
    · exact ⟨n % base, Nat.mod_lt n hpos, rfl⟩

theorem isHexDigit_of_mem_fixed {width n : Nat} {b : UInt8} (h : b ∈ fixed 16 width n) :
    isHexDigit b = true := by
  obtain ⟨d, hd, rfl⟩ := exists_digit_of_mem_fixed (by decide) h
  exact isHexDigit_digit hd

/-- Nothing but decimal digits is in a decimal numeral. -/
theorem notMem_decimal {b : UInt8} (hb : ∀ d < 10, b ≠ digit d) (n : Nat) : b ∉ decimal n := by
  intro h
  obtain ⟨d, hd, heq⟩ := exists_digit_of_mem_fixed (by decide) h
  exact hb d hd heq

theorem isHexDigit_of_mem_hex {width n : Nat} {b : UInt8} (h : b ∈ hex width n) :
    isHexDigit b = true :=
  isHexDigit_of_mem_fixed h

theorem countFrom_le {base fuel width n : Nat} (h : n < base ^ (width + 1)) :
    countFrom base fuel n ≤ width + 1 := by
  induction fuel generalizing width n with
  | zero => simp [countFrom]
  | succ fuel ih =>
    rw [countFrom]
    split
    · omega
    · rename_i hn
      cases width with
      | zero =>
        rw [Nat.zero_add, Nat.pow_one] at h
        exact absurd h hn
      | succ width =>
        have hdiv : n / base < base ^ (width + 1) := by
          apply Nat.div_lt_of_lt_mul
          rw [← Nat.pow_succ']
          exact h
        have := ih hdiv
        omega

/-- A number below `base ^ width` needs no more than `width` digits. -/
theorem digitCount_le {base width n : Nat} (hwidth : 0 < width) (h : n < base ^ width) :
    digitCount base n ≤ width := by
  obtain ⟨w, rfl⟩ := Nat.exists_eq_succ_of_ne_zero (Nat.ne_of_gt hwidth)
  exact countFrom_le h

theorem hex_eq_fixed {width n : Nat} (hwidth : 0 < width) (h : n < 16 ^ width) :
    hex width n = fixed 16 width n := by
  rw [hex, padded, Nat.max_eq_left (digitCount_le hwidth h)]

theorem length_hex {width n : Nat} (hwidth : 0 < width) (h : n < 16 ^ width) :
    (hex width n).length = width := by
  rw [hex_eq_fixed hwidth h, length_fixed]

/-- The digits that are counted are enough. -/
theorem lt_pow_countFrom {base : Nat} (hbase : 1 < base) {fuel n : Nat} (h : n < 2 ^ (fuel + 1)) :
    n < base ^ countFrom base fuel n := by
  induction fuel generalizing n with
  | zero =>
    rw [countFrom, Nat.pow_one]
    omega
  | succ fuel ih =>
    rw [countFrom]
    split
    · rw [Nat.pow_one]
      assumption
    · have hdiv : n / base < 2 ^ (fuel + 1) := by
        have hhalf : n / base ≤ n / 2 := Nat.div_le_div_left hbase (by decide)
        rw [Nat.pow_succ] at h
        omega
      have := (Nat.div_lt_iff_lt_mul (by omega)).1 (ih hdiv)
      rw [Nat.pow_succ]
      exact this

theorem lt_pow_digitCount {base : Nat} (hbase : 1 < base) (n : Nat) :
    n < base ^ digitCount base n :=
  lt_pow_countFrom hbase Nat.lt_log2_self

theorem digitCount_le_iff {base width n : Nat} (hbase : 1 < base) (hwidth : 0 < width) :
    digitCount base n ≤ width ↔ n < base ^ width := by
  constructor
  · intro hle
    exact Nat.lt_of_lt_of_le (lt_pow_digitCount hbase n) (Nat.pow_le_pow_right (by omega) hle)
  · exact digitCount_le hwidth

/-- A padded numeral loses nothing, however narrow the width. -/
theorem value_hex (width n : Nat) : value 16 (hex width n) = n := by
  have hlt : n < 16 ^ max width (digitCount 16 n) :=
    calc n < 16 ^ digitCount 16 n := lt_pow_digitCount (by decide) n
      _ ≤ 16 ^ max width (digitCount 16 n) :=
        Nat.pow_le_pow_right (by decide) (Nat.le_max_right _ _)
  rw [hex, padded, value_fixed (by decide) (by decide), Nat.mod_eq_of_lt hlt]

/-! ## Order of numerals -/

theorem digit_lt_digit {d e : Nat} (h : d < e) (he : e < 16) : digit d < digit e := by
  have table : ∀ e < 16, ∀ d < e, digit d < digit e := by decide
  exact table e he d h

/-- Texts of equal length stay in order whatever is put behind them. -/
theorem append_lt_append {a b : Bytes} (hlength : a.length = b.length) (h : a < b)
    (s t : Bytes) : a ++ s < b ++ t := by
  induction a generalizing b with
  | nil =>
    obtain rfl := List.length_eq_zero_iff.1 hlength.symm
    exact absurd h (List.lt_irrefl [])
  | cons x a ih =>
    cases b with
    | nil => cases hlength
    | cons y b =>
      rw [List.cons_append, List.cons_append]
      rcases List.cons_lt_cons_iff.1 h with hxy | ⟨rfl, hab⟩
      · exact List.cons_lt_cons_iff.2 (.inl hxy)
      · exact List.cons_lt_cons_iff.2 (.inr ⟨rfl, ih (Nat.succ.inj hlength) hab⟩)

/-- Numerals of one width are in the order of their numbers. -/
theorem fixed_lt_fixed {width m n : Nat} (h : m < n) (hn : n < 16 ^ width) :
    fixed 16 width m < fixed 16 width n := by
  -- The digits but the last are those of the quotients, so these decide unless they are equal.
  induction width generalizing m n with
  | zero => omega
  | succ width ih =>
    rw [fixed_succ, fixed_succ]
    have hquotient : n / 16 < 16 ^ width := by
      rw [Nat.pow_succ] at hn
      omega
    rcases Nat.lt_or_ge (m / 16) (n / 16) with hlt | hge
    · exact append_lt_append (by rw [length_fixed, length_fixed]) (ih hlt hquotient) _ _
    · have hsame : m / 16 = n / 16 := by omega
      rw [hsame]
      refine List.append_left_lt (List.cons_lt_cons_iff.2 (.inl ?_))
      exact digit_lt_digit (by omega) (Nat.mod_lt n (by decide))

end Disasm6502.Numeral
