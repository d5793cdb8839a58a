import Mathlib.Data.Nat.Digits.Lemmas
import Disasm6502.Proofs.ListingAddresses
import Disasm6502.Proofs.ListingText

/-!
Listings of programs of any kind: the declared size need not be that of the instructions, and an
instruction may have a mnemonic or a mode that does not exist. The address column can then be too
narrow or too wide, but no address is cut (`Numeral.length_hex_eq_max`), no text breaks a row
(`Line.newline_notMem_text`), and every instruction moves the address on. So the rows are found at
the newlines of the listing, and each of them shows its address and its instruction.
-/

namespace Disasm6502

namespace Numeral

/-- The digits that are counted are those of the numeral without leading zeros. -/
theorem digitCount_eq_length_digits {n : Nat} (hpos : 0 < n) :
    digitCount 16 n = (Nat.digits 16 n).length := by
  apply eq_of_forall_ge_iff
  intro width
  rw [Nat.digits_length_le_iff (by omega)]
  cases width with
  | zero =>
    have := digitCount_pos 16 n
    rw [Nat.pow_zero]
    omega
  | succ width => exact digitCount_le_iff (by omega) (Nat.succ_pos width)

/-- Padding fills up a numeral that is too short and leaves a longer one as it is. -/
theorem length_hex_eq_max {n : Nat} (hpos : 0 < n) (width : Nat) :
    (hex width n).length = max width (Nat.digits 16 n).length := by
  rw [hex, length_padded, digitCount_eq_length_digits hpos]

end Numeral

namespace Program

theorem length_linesFrom (address : Nat) (is : List Instruction) :
    (linesFrom address is).length = is.length := by
  induction is generalizing address with
  | nil => rfl
  | cons i is ih => rw [linesFrom, List.length_cons, ih, List.length_cons]

theorem length_rows (p : Program) : p.rows.length = p.instructions.length := by
  rw [rows_eq, List.length_map, length_linesFrom]

theorem rows_ne_nil {p : Program} (h : p.instructions ≠ []) : p.rows ≠ [] := by
  rw [← List.length_pos_iff, length_rows, List.length_pos_iff]
  exact h

theorem address_pos {p : Program} {n : Nat} {l : Line} (hl : p.lines[n]? = some l) :
    0 < l.address := by
  obtain ⟨_, haddress⟩ := getElem?_lines hl
  rw [haddress, baseAddress]
  omega

/-- The row of a line has as many digits as the column is wide, or as the address needs. -/
theorem exists_shownBy_of_row {p : Program} {n : Nat} {row : Bytes}
    (h : p.rows[n]? = some row) :
    ∃ (l : Line) (digits : Bytes), p.lines[n]? = some l ∧ l.ShownBy digits row ∧
      digits.length = max p.width (Nat.digits 16 l.address).length := by
  rw [rows, List.getElem?_map] at h
  obtain ⟨l, hl, rfl⟩ := Option.map_eq_some_iff.1 h
  exact ⟨l, _, hl, l.shownBy_text p.width, Numeral.length_hex_eq_max (address_pos hl) p.width⟩

/-- Rows are read back from the listing of every program that has an instruction, whatever size it
declares and whatever its instructions are. Cutting at the newlines gives one row for each
instruction; a row consists of a dollar sign, the address in as many hexadecimal digits as the
column is wide or the address needs, four spaces and the instruction; and the addresses start at the
base address and go up by one, two or three. -/
theorem listing_reads_back (p : Program) (hne : p.instructions ≠ []) :
    (p.listing.splitOn newline).length = p.instructions.length ∧
      (∀ (n : Nat) (row : Bytes), (p.listing.splitOn newline)[n]? = some row →
        ∃ (l : Line) (digits : Bytes), p.lines[n]? = some l ∧
          p.instructions[n]? = some l.instruction ∧
          row = utf8 "$" ++ digits ++ utf8 "    " ++ l.instruction.text ∧
          digits.length = max p.width (Nat.digits 16 l.address).length ∧
          (∀ b ∈ digits, Numeral.isHexDigit b = true) ∧ Numeral.value 16 digits = l.address) ∧
      p.lines.head?.map Line.address = some 0x8000 ∧
      ∀ (n : Nat) (l l' : Line), p.lines[n]? = some l → p.lines[n + 1]? = some l' →
        l'.address = l.address + 1 ∨ l'.address = l.address + 2 ∨ l'.address = l.address + 3 := by
  rw [splitOn_listing (rows_ne_nil hne)]
  refine ⟨length_rows p, ?_, ?_, ?_⟩
  · intro n row hrow
    obtain ⟨l, digits, hl, hshown, hlength⟩ := exists_shownBy_of_row hrow
    exact ⟨l, digits, hl, (getElem?_lines hl).1, hshown.row_eq, hlength, hshown.isHexDigit,
      hshown.value_eq⟩
  · obtain ⟨i, is, his⟩ := List.exists_cons_of_ne_nil hne
    rw [lines_eq_linesFrom, his]
    rfl
  · intro n l l' hl hl'
    have hpos := l.instruction.size_pos
    have hthree := l.instruction.size_le_three
    rw [address_succ hl hl']
    omega

/-- A mnemonic and a mode that do not exist, in a program with a negative size and hence with no
width for its addresses: the first row still has all four digits. -/
theorem listing_reads_back_unknown :
    ∃ (p : Program) (row digits : Bytes), p.size = -0x7FFF ∧ p.width = 0 ∧
      (p.listing.splitOn newline).length = 2 ∧ (p.listing.splitOn newline)[0]? = some row ∧
      row = utf8 "$" ++ digits ++ utf8 "    " ++ utf8 "???   " ∧ digits.length = 4 ∧
      Numeral.value 16 digits = 0x8000 := by
  let p : Program := ⟨[⟨0xEA, none, some ⟨none, 0x1234⟩⟩, ⟨0xEA, some .nop, none⟩], -0x7FFF⟩
  obtain ⟨hlength, hrows, _⟩ := listing_reads_back p (List.cons_ne_nil _ _)
  have hpos : 0 < (p.listing.splitOn newline).length := by
    rw [hlength]
    exact Nat.succ_pos 1
  have hfirst := List.getElem?_eq_getElem hpos
  obtain ⟨l, digits, hl, _, hrow, hdigits, _, hvalue⟩ := hrows 0 _ hfirst
  obtain rfl : (⟨0x8000, ⟨0xEA, none, some ⟨none, 0x1234⟩⟩⟩ : Line) = l := Option.some.inj hl
  have hwidth : p.width = 0 := by decide
  refine ⟨p, _, digits, rfl, hwidth, hlength, hfirst, hrow, ?_, hvalue⟩
  rw [hdigits, hwidth]
  norm_num

end Program

end Disasm6502
