import Disasm6502.Proofs.InstructionCode
import Disasm6502.Proofs.Numeral

/-!
What the text of an instruction says. An operand's text is taken apart in two ways: its `outline`,
with all hexadecimal digits made equal, depends on the mode alone, and its digits are those of the
value. Only relative and zero page operands have the same outline, and no instruction takes both, so
that the text of a well-formed instruction determines mnemonic and operand
(`Instruction.shown_eq_of_text_eq`).
-/

namespace Disasm6502

/-- A text with every hexadecimal digit made a zero. -/
def outline (text : Bytes) : Bytes := text.map fun b => if Numeral.isHexDigit b then 0x30 else b

/-- The hexadecimal digits in a text. -/
def hexDigits (text : Bytes) : Bytes := text.filter Numeral.isHexDigit

@[simp] theorem outline_append (a b : Bytes) : outline (a ++ b) = outline a ++ outline b :=
  List.map_append

@[simp] theorem hexDigits_append (a b : Bytes) : hexDigits (a ++ b) = hexDigits a ++ hexDigits b :=
  List.filter_append a b

theorem outline_fixed (width n : Nat) :
    outline (Numeral.fixed 16 width n) = List.replicate width 0x30 := by
  rw [outline, List.eq_replicate_iff, List.length_map, Numeral.length_fixed]
  refine ⟨rfl, ?_⟩
  intro b hb
  obtain ⟨d, hd, rfl⟩ := List.mem_map.1 hb
  rw [if_pos (Numeral.isHexDigit_of_mem_fixed hd)]

theorem hexDigits_fixed (width n : Nat) :
    hexDigits (Numeral.fixed 16 width n) = Numeral.fixed 16 width n :=
  List.filter_eq_self.2 fun _ hb => Numeral.isHexDigit_of_mem_fixed hb

/-- A byte that is no digit is in a text if it is in the outline. -/
theorem mem_outline_of_mem {text : Bytes} {b : UInt8} (hb : Numeral.isHexDigit b = false)
    (h : b ∈ text) : b ∈ outline text :=
  List.mem_map.2 ⟨b, h, by simp [hb]⟩

namespace Operand

theorem hexByte_eq_fixed (v : UInt16) : hexByte v = Numeral.fixed 16 2 v.toNat := by
  have hlt : v.toNat % 16 ^ 2 < 16 ^ 2 := Nat.mod_lt _ (by decide)
  rw [hexByte, toNat_lowByte, ← Numeral.fixed_mod]
  exact Numeral.hex_eq_fixed (by decide) hlt

theorem hexWord_eq_fixed (v : UInt16) : hexWord v = Numeral.fixed 16 4 v.toNat :=
  Numeral.hex_eq_fixed (by decide) v.toNat_lt

/-- The outline of an operand's text is fixed by its mode. -/
theorem outline_text {o : Operand} {m : Mode} (h : o.mode = some m) :
    outline o.text = outline (⟨some m, 0⟩ : Operand).text := by
  cases m <;>
    simp only [text, h, outline_append, hexByte_eq_fixed, hexWord_eq_fixed, outline_fixed]

/-- Relative and zero page operands are the only ones that look alike. -/
theorem mode_of_outline : ∀ m ∈ Mode.all, ∀ m' ∈ Mode.all,
    outline (⟨some m, 0⟩ : Operand).text = outline (⟨some m', 0⟩ : Operand).text →
      m = m' ∨ m ∈ [Mode.relative, Mode.zeroPage] ∧ m' ∈ [Mode.relative, Mode.zeroPage] := by
  decide

theorem hexDigits_punctuation : ∀ s ∈ ["A", "$", "#$", "($", ",X", ",Y", ")", ",X)", "),Y"],
    hexDigits (utf8 s) = [] := by
  decide

/-- The digits of an operand's text are those of its value, two for each byte of payload. -/
theorem hexDigits_text {o : Operand} {m : Mode} (h : o.mode = some m) :
    hexDigits o.text = Numeral.fixed 16 (2 * m.size) o.value.toNat := by
  cases m with
  | implied => simp [text, h, hexDigits, Mode.size]
  | _ =>
    simp [text, h, hexByte_eq_fixed, hexWord_eq_fixed, hexDigits_fixed, hexDigits_punctuation,
      Mode.size]

theorem newline_notMem_text (o : Operand) : newline ∉ o.text := by
  have table : ∀ m ∈ Mode.all, newline ∉ outline (⟨some m, 0⟩ : Operand).text := by
    decide
  intro hmem
  cases hm : o.mode with
  | none => simp [text, hm] at hmem
  | some m =>
    have hout := mem_outline_of_mem (by decide) hmem
    rw [outline_text hm] at hout
    exact table m m.mem_all hout

/-- Two operands with the same text are equal, unless one is relative and the other zero page. -/
theorem eq_of_text_eq {o o' : Operand} {m m' : Mode} (ho : o.mode = some m)
    (ho' : o'.mode = some m') (hv : o.value.toNat < Nat.pow 256 o.size)
    (hv' : o'.value.toNat < Nat.pow 256 o'.size) (h : o.text = o'.text) :
    o = o' ∨ m ≠ m' ∧ m ∈ [Mode.relative, Mode.zeroPage] ∧ m' ∈ [Mode.relative, Mode.zeroPage] := by
  by_cases hm : m = m'
  · subst hm
    have hsize : o.size = m.size := by rw [size, ho, modeSize]
    have hsize' : o'.size = m.size := by rw [size, ho', modeSize]
    have hpow : Nat.pow 256 m.size = 16 ^ (2 * m.size) := by
      rw [Nat.pow_eq, Nat.pow_mul]
    have hdigits : Numeral.fixed 16 (2 * m.size) o.value.toNat =
        Numeral.fixed 16 (2 * m.size) o'.value.toNat := by
      rw [← hexDigits_text ho, ← hexDigits_text ho', h]
    have hvalue := congrArg (Numeral.value 16) hdigits
    rw [Numeral.value_fixed (by decide) (by decide), Numeral.value_fixed (by decide) (by decide),
      ← hpow, Nat.mod_eq_of_lt (hsize ▸ hv), Nat.mod_eq_of_lt (hsize' ▸ hv')] at hvalue
    left
    obtain ⟨mode, value⟩ := o
    obtain ⟨mode', value'⟩ := o'
    obtain rfl : mode = some m := ho
    obtain rfl : mode' = some m := ho'
    obtain rfl : value = value' := UInt16.toNat_inj.1 hvalue
    rfl
  · have houtline :
        outline (⟨some m, 0⟩ : Operand).text = outline (⟨some m', 0⟩ : Operand).text := by
      rw [← outline_text ho, ← outline_text ho', h]
    rcases mode_of_outline m m.mem_all m' m'.mem_all houtline with h | h
    · exact absurd h hm
    · exact .inr ⟨hm, h⟩

end Operand

namespace Mnemonic

/-- Names have three letters. -/
theorem length_name (m : Mnemonic) : (utf8 m.name).length = 3 := by cases m <;> rfl

theorem newline_notMem_name (m : Mnemonic) : newline ∉ utf8 m.name := by cases m <;> decide

theorem eq_of_name_eq {m m' : Mnemonic} (h : utf8 m.name = utf8 m'.name) : m = m' := by
  have table : ∀ m ∈ all, all.find? (fun m' => utf8 m'.name == utf8 m.name) = some m := by
    decide +kernel
  have hm := table m m.mem_all
  rw [h, table m' m'.mem_all] at hm
  exact (Option.some.inj hm).symm

/-- No instruction takes both kinds of operand that look alike. -/
theorem not_relative_and_zeroPage (m : Mnemonic) :
    ¬ (m.modes.contains .relative = true ∧ m.modes.contains .zeroPage = true) := by
  cases m <;> decide

end Mnemonic

namespace Instruction

/-- What a listing shows of an instruction. -/
def shown (i : Instruction) : Option Mnemonic × Option Operand := (i.mnemonic, i.operand)

theorem operand_eq_none_iff {i : Instruction} (h : i.WellFormed) :
    i.operand = none ↔ (Opcode.mnemonic i.opcode).modes.isEmpty = true := by
  obtain ⟨op, mnemonic, operand⟩ := i
  cases operand with
  | none => exact ⟨fun _ => h.2, fun _ => rfl⟩
  | some o =>
    have hne : (Opcode.mnemonic op).modes.isEmpty = false := h.2.1
    simp [hne]

/-- A well-formed instruction's operand has one of the mnemonic's modes and a value that fits. -/
theorem operand_of_wellFormed {i : Instruction} {o : Operand} (h : i.WellFormed)
    (ho : i.operand = some o) :
    ∃ m, o.mode = some m ∧ (Opcode.mnemonic i.opcode).modes.contains m = true ∧
      o.value.toNat < Nat.pow 256 o.size := by
  obtain ⟨op, mnemonic, operand⟩ := i
  obtain rfl : operand = some o := ho
  obtain ⟨_, _, hresolve, hsome, hv⟩ := h
  obtain ⟨m, hm⟩ := Option.isSome_iff_exists.1 hsome
  rw [hm] at hresolve
  exact ⟨m, hm, ModeSet.contains_of_resolve hresolve.symm, hv⟩

/-- The part of the text behind the mnemonic. -/
def operandText (i : Instruction) : Bytes :=
  match i.operand with
  | none => []
  | some o => utf8 "   " ++ o.text

theorem text_eq_of_wellFormed {i : Instruction} (h : i.WellFormed) :
    i.text = utf8 (Opcode.mnemonic i.opcode).name ++ i.operandText := by
  rw [text, operandText, h.1]
  cases i.operand with
  | none => simp [mnemonicName]
  | some o => simp [mnemonicName]

theorem operand_eq_of_operandText_eq {i j : Instruction} (hi : i.WellFormed) (hj : j.WellFormed)
    (hm : Opcode.mnemonic i.opcode = Opcode.mnemonic j.opcode)
    (h : i.operandText = j.operandText) : i.operand = j.operand := by
  cases hoi : i.operand with
  | none =>
    rw [operand_eq_none_iff hi, hm, ← operand_eq_none_iff hj] at hoi
    exact hoi.symm
  | some o =>
    cases hoj : j.operand with
    | none =>
      rw [operand_eq_none_iff hj, ← hm, ← operand_eq_none_iff hi, hoi] at hoj
      cases hoj
    | some o' =>
      obtain ⟨m, ho, hmem, hv⟩ := operand_of_wellFormed hi hoi
      obtain ⟨m', ho', hmem', hv'⟩ := operand_of_wellFormed hj hoj
      rw [← hm] at hmem'
      simp only [operandText, hoi, hoj] at h
      rcases Operand.eq_of_text_eq ho ho' hv hv' (List.append_cancel_left h) with heq | hlook
      · rw [heq]
      · have hboth := (Opcode.mnemonic i.opcode).not_relative_and_zeroPage
        simp only [List.mem_cons, List.not_mem_nil, or_false] at hlook
        obtain ⟨hne, rfl | rfl, rfl | rfl⟩ := hlook
        · exact absurd rfl hne
        · exact absurd ⟨hmem, hmem'⟩ hboth
        · exact absurd ⟨hmem', hmem⟩ hboth
        · exact absurd rfl hne

/-- The text of a well-formed instruction tells its mnemonic and its operand. -/
theorem shown_eq_of_text_eq {i j : Instruction} (hi : i.WellFormed) (hj : j.WellFormed)
    (h : i.text = j.text) : i.shown = j.shown := by
  rw [text_eq_of_wellFormed hi, text_eq_of_wellFormed hj] at h
  have hlength : (utf8 (Opcode.mnemonic i.opcode).name).length =
      (utf8 (Opcode.mnemonic j.opcode).name).length := by
    rw [Mnemonic.length_name, Mnemonic.length_name]
  obtain ⟨hname, hoperand⟩ := List.append_inj h hlength
  have hm := Mnemonic.eq_of_name_eq hname
  rw [shown, shown, hi.1, hj.1, hm, operand_eq_of_operandText_eq hi hj hm hoperand]

theorem text_eq_of_shown_eq {i j : Instruction} (h : i.shown = j.shown) : i.text = j.text := by
  obtain ⟨hm, ho⟩ := Prod.mk.inj h
  simp only [text, hm, ho]

theorem size_eq_of_shown_eq {i j : Instruction} (h : i.shown = j.shown) : i.size = j.size := by
  obtain ⟨_, ho⟩ := Prod.mk.inj h
  simp only [size, operandSize, ho]

theorem map_size_eq_of_shown_eq {is js : List Instruction} (h : is.map shown = js.map shown) :
    is.map size = js.map size := by
  have hsize (ks : List Instruction) :
      ks.map size = (ks.map shown).map fun s => size ⟨0, s.1, s.2⟩ := by
    rw [List.map_map]
    rfl
  rw [hsize is, hsize js, h]

/-- No text of an instruction, hand-made ones included, breaks a line. -/
theorem newline_notMem_text (i : Instruction) : newline ∉ i.text := by
  have hname : newline ∉ utf8 (mnemonicName i.mnemonic) := by
    cases i.mnemonic with
    | none => decide
    | some m => exact m.newline_notMem_name
  cases ho : i.operand with
  | none =>
    simp only [text, ho]
    exact hname
  | some o =>
    simp only [text, ho, List.mem_append, not_or]
    exact ⟨⟨hname, by decide⟩, o.newline_notMem_text⟩

end Instruction

end Disasm6502
