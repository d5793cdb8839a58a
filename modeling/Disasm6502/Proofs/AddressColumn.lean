import Mathlib.Analysis.SpecialFunctions.Log.Base
import Mathlib.Data.Nat.Digits.Lemmas
import Disasm6502.Proofs.ListingAddresses
import Disasm6502.Proofs.ListingText

/-!
The address column. Up to `2 ^ 48` the precision of the width does not show: a width is enough for
the addresses below `top` exactly if it has that many numerals (`addressWidth_le_iff`), which makes
it the logarithm to base 16, rounded up, and the number of digits of the last address. The addresses
of a decoded program stay below its end, hence each row has just as many digits as the column is
wide, and rows are in the order of their addresses also as texts (`text_lt_text`).
-/

namespace Disasm6502

/-! ## The width -/

/-- Up to `2 ^ 48` there is no number in the gap above a power. -/
theorem fitsWidth_iff {top w : Nat} (h : top ≤ 2 ^ 48) : FitsWidth top w ↔ top ≤ 16 ^ w := by
  have hprecision : precision = 2 ^ 53 := rfl
  rw [FitsWidth, Nat.pow_eq, hprecision]
  constructor
  · intro hfits
    by_contra hgt
    -- A number above the power exceeds it by a whole unit, and the gap is less than one.
    have hgap : 16 ^ w * 23 < 2 ^ 53 := by omega
    have hunit : (16 ^ w + 1) * 2 ^ 53 ≤ top * 2 ^ 53 := Nat.mul_le_mul_right _ (by omega)
    omega
  · intro hle
    have hpos : 0 < 16 ^ w := Nat.pow_pos (by decide)
    omega

theorem addressWidth_le_iff {top w : Nat} (hpos : 0 < top) (h : top ≤ 2 ^ 48) :
    addressWidth top ≤ w ↔ top ≤ 16 ^ w := by
  have hpow (k : Nat) : (16 : Nat) ^ k = 2 ^ (4 * k) := by rw [Nat.pow_mul]
  have hlow : 16 ^ (top.log2 / 4) ≤ top :=
    calc 16 ^ (top.log2 / 4) = 2 ^ (4 * (top.log2 / 4)) := hpow _
      _ ≤ 2 ^ top.log2 := Nat.pow_le_pow_right (by decide) (by omega)
      _ ≤ top := Nat.log2_self_le (by omega)
  have hhigh : top < 16 ^ (top.log2 / 4 + 1) :=
    calc top < 2 ^ (top.log2 + 1) := Nat.lt_log2_self
      _ ≤ 2 ^ (4 * (top.log2 / 4 + 1)) := Nat.pow_le_pow_right (by decide) (by omega)
      _ = 16 ^ (top.log2 / 4 + 1) := (hpow _).symm
  rw [addressWidth]
  -- The lower candidate is enough for the power itself, and only for that.
  split
  · rename_i hfits
    constructor
    · intro hle
      exact Nat.le_trans ((fitsWidth_iff h).1 hfits) (Nat.pow_le_pow_right (by decide) hle)
    · intro hle
      exact (Nat.pow_le_pow_iff_right (by decide)).1 (Nat.le_trans hlow hle)
  · rename_i hnot
    rw [fitsWidth_iff h, Nat.not_le] at hnot
    constructor
    · intro hle
      exact Nat.le_trans (Nat.le_of_lt hhigh) (Nat.pow_le_pow_right (by decide) hle)
    · intro hle
      exact (Nat.pow_lt_pow_iff_right (by decide)).1 (Nat.lt_of_lt_of_le hnot hle)

theorem addressWidth_eq_clog {top : Nat} (hpos : 0 < top) (h : top ≤ 2 ^ 48) :
    addressWidth top = Nat.clog 16 top := by
  apply eq_of_forall_ge_iff
  intro w
  rw [addressWidth_le_iff hpos h, Nat.clog_le_iff_le_pow (by decide)]

/-- A quarter of the binary logarithm, rounded up. -/
theorem addressWidth_eq_ceil {top : Nat} (hpos : 0 < top) (h : top ≤ 2 ^ 48) :
    (addressWidth top : ℤ) = ⌈Real.logb 2 top / 4⌉ := by
  have hlogb : Real.logb 2 top / 4 = Real.logb (16 : ℕ) top := by
    have hbase : Real.log (16 : ℕ) = 4 * Real.log 2 := by
      rw [show ((16 : ℕ) : ℝ) = 2 ^ 4 by norm_num, Real.log_pow]
      norm_num
    rw [Real.logb, Real.logb, hbase, div_div, mul_comm]
  rw [hlogb, Real.ceil_logb_natCast (Nat.cast_nonneg top), Int.clog_natCast,
    addressWidth_eq_clog hpos h]

/-- The digits of the last address of the range. -/
theorem addressWidth_eq_length_digits {top : Nat} (hpos : 0 < top) (h : top ≤ 2 ^ 48) :
    addressWidth top = (Nat.digits 16 (top - 1)).length := by
  apply eq_of_forall_ge_iff
  intro w
  rw [addressWidth_le_iff hpos h, Nat.digits_length_le_iff (by decide)]
  have hpow : 0 < 16 ^ w := Nat.pow_pos (by decide)
  omega

/-! ## The rows -/

/-- No address but the first of all fits a column without places. -/
theorem pos_of_lt_pow {address width : Nat} (hpos : 0 < address) (h : address < 16 ^ width) :
    0 < width := by
  by_contra hzero
  rw [Nat.eq_zero_of_not_pos hzero] at h
  omega

/-- Rows with addresses that fit the column are in the order of these. -/
theorem Line.text_lt_text {l l' : Line} {width : Nat} (h : l.address < l'.address)
    (hfits : l'.address < 16 ^ width) : l.text width < l'.text width := by
  have hwidth : 0 < width := pos_of_lt_pow (Nat.zero_lt_of_lt h) hfits
  have hlength : (Numeral.hex width l.address).length = (Numeral.hex width l'.address).length := by
    rw [Numeral.length_hex hwidth (Nat.lt_trans h hfits), Numeral.length_hex hwidth hfits]
  have hdigits : Numeral.hex width l.address < Numeral.hex width l'.address := by
    rw [Numeral.hex_eq_fixed hwidth (Nat.lt_trans h hfits), Numeral.hex_eq_fixed hwidth hfits]
    exact Numeral.fixed_lt_fixed h hfits
  simp only [text, List.append_assoc]
  exact List.append_left_lt (Numeral.append_lt_append hlength hdigits _ _)

namespace Program

theorem pairwise_address (p : Program) :
    p.lines.Pairwise fun l l' => l.address < l'.address := by
  rw [lines_eq_linesFrom]
  refine (pairwise_linesFrom baseAddress p.instructions).imp ?_
  intro l l' hle
  have := l.instruction.size_pos
  omega

/-- The end of a program as the natural number that its width is computed from. -/
theorem exists_top {p : Program} (hpos : 0 ≤ p.size) (hrange : p.size + 0x8000 ≤ 2 ^ 48) :
    ∃ top : Nat, 0 < top ∧ top ≤ 2 ^ 48 ∧ p.size + 0x8000 = top ∧ p.width = addressWidth top := by
  refine ⟨(p.size + baseAddress).toNat, ?_, ?_, ?_, rfl⟩
  · rw [baseAddress]
    omega
  · rw [baseAddress]
    omega
  · rw [baseAddress]
    omega

theorem width_isLeast {p : Program} (hpos : 0 ≤ p.size) (hrange : p.size + 0x8000 ≤ 2 ^ 48) :
    IsLeast {w : ℕ | p.size + 0x8000 ≤ 16 ^ w} p.width := by
  obtain ⟨top, htop, hbound, hsize, hwidth⟩ := exists_top hpos hrange
  have hle (w : ℕ) : p.size + 0x8000 ≤ 16 ^ w ↔ p.width ≤ w := by
    rw [hwidth, addressWidth_le_iff htop hbound, hsize]
    norm_cast
  exact ⟨(hle _).2 (Nat.le_refl _), fun w hw => (hle w).1 hw⟩

/-- Every address of a decoded program has a place in the column. -/
theorem address_lt_pow_width {code : Bytes} {limit : Int} {p : Program}
    (h : decode code limit = .ok p) (hrange : p.size + 0x8000 ≤ 2 ^ 48) {l : Line}
    (hl : l ∈ p.lines) : 0 < l.address ∧ l.address < 16 ^ p.width := by
  obtain ⟨_, _, _, hsize⟩ := decode_eq_ok_iff.1 h
  have hcovers : l.Covers l.address :=
    ⟨Nat.le_refl _, Nat.lt_add_of_pos_right l.instruction.size_pos⟩
  obtain ⟨hge, hlt⟩ := (exists_covers_lines_iff h l.address).1 ⟨l, hl, hcovers⟩
  have hend : p.size + 0x8000 ≤ 16 ^ p.width := (width_isLeast (by omega) hrange).1
  refine ⟨by omega, ?_⟩
  zify
  omega

/-- The address column always fits. Its width is the least that has room for all addresses below
the end of the program; every row of a decoded program fills it exactly, and the rows are in strict
order by address and as texts. -/
theorem address_column_fits :
    (∀ p : Program, 0 ≤ p.size → p.size + 0x8000 ≤ 2 ^ 48 →
      (p.width : ℤ) = ⌈Real.logb 2 (p.size + 0x8000) / 4⌉ ∧
        p.width = (Nat.digits 16 (p.size + 0x7FFF).toNat).length ∧
        IsLeast {w : ℕ | p.size + 0x8000 ≤ 16 ^ w} p.width) ∧
      ∀ (code : Bytes) (limit : Int) (p : Program), decode code limit = .ok p →
        p.size + 0x8000 ≤ 2 ^ 48 →
        p.listing = [newline].intercalate p.rows ∧ (∀ row ∈ p.rows, newline ∉ row) ∧
          (∀ (n : Nat) (row : Bytes), p.rows[n]? = some row →
            ∃ l digits, p.lines[n]? = some l ∧ l.ShownBy digits row ∧ digits.length = p.width) ∧
          p.lines.Pairwise (fun l l' => l.address < l'.address) ∧ p.rows.Pairwise (· < ·) := by
  constructor
  · intro p hpos hrange
    obtain ⟨top, htop, hbound, hsize, hwidth⟩ := exists_top hpos hrange
    refine ⟨?_, ?_, width_isLeast hpos hrange⟩
    · have hreal : (p.size : ℝ) + 0x8000 = top := by exact_mod_cast hsize
      rw [hreal, hwidth]
      exact addressWidth_eq_ceil htop hbound
    · have hlast : (p.size + 0x7FFF).toNat = top - 1 := by omega
      rw [hlast, hwidth]
      exact addressWidth_eq_length_digits htop hbound
  · intro code limit p h hrange
    have hfits {l : Line} (hl : l ∈ p.lines) := address_lt_pow_width h hrange hl
    refine ⟨listing_eq_intercalate p, p.newline_notMem_rows, ?_, pairwise_address p, ?_⟩
    · intro n row hrow
      rw [rows, List.getElem?_map] at hrow
      obtain ⟨l, hl, rfl⟩ := Option.map_eq_some_iff.1 hrow
      obtain ⟨hpos, hlt⟩ := hfits (List.mem_of_getElem? hl)
      exact ⟨l, _, hl, l.shownBy_text p.width, Numeral.length_hex (pos_of_lt_pow hpos hlt) hlt⟩
    · rw [rows, List.pairwise_map]
      refine (pairwise_address p).imp_of_mem ?_
      intro l l' _ hl' hlt
      exact Line.text_lt_text hlt (hfits hl').2

/-- Around the first size that needs a fifth digit, and two rows of a program. -/
theorem address_column_fits_carry :
    (⟨[], 0x8000⟩ : Program).width = 4 ∧ (⟨[], 0x8001⟩ : Program).width = 5 ∧
      ∃ p, decode [0x0A, 0x4C, 0x00, 0x80] 4 = .ok p ∧ p.width = 4 ∧ p.rows.Pairwise (· < ·) := by
  have h : decode [0x0A, 0x4C, 0x00, 0x80] 4 =
      .ok ⟨[⟨0x0A, some .asl, some ⟨some .accumulator, 0⟩⟩,
        ⟨0x4C, some .jmp, some ⟨some .absolute, 0x8000⟩⟩], 4⟩ :=
    decode_eq_ok_iff.2 ⟨by decide, rfl, by decide, rfl⟩
  obtain ⟨hwidth, hrows⟩ := address_column_fits
  obtain ⟨_, _, _, _, horder⟩ := hrows _ _ _ h (by decide)
  obtain ⟨_, hfour, _⟩ := hwidth ⟨[], 0x8000⟩ (by decide) (by decide)
  obtain ⟨_, hfive, _⟩ := hwidth ⟨[], 0x8001⟩ (by decide) (by decide)
  refine ⟨hfour.trans ?_, hfive.trans ?_, _, h, by decide, horder⟩
  · show (Nat.digits 16 0xFFFF).length = 4
    norm_num
  · show (Nat.digits 16 0x10000).length = 5
    norm_num

end Program

end Disasm6502
