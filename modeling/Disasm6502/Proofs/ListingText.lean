import Disasm6502.Program.Listing
import Disasm6502.Proofs.Boundary
import Disasm6502.Proofs.InstructionText
import Disasm6502.Proofs.OpcodeAlias

/-!
What a listing says about the program. A row shows an address and an instruction
(`Line.shownBy_text`). The rows of a listing are found again at its newlines and the instruction of
a row behind the first space, so a listing determines mnemonic and operand of every instruction
(`Program.shown_eq_of_listing_eq`). What it does not determine are opcodes that are
aliases of each other; these are the only bytes in which two programs with the same listing differ.
-/

namespace Disasm6502

/-! ## Rows -/

namespace Line

theorem ne_space_of_mem_address {width address : Nat} {b : UInt8}
    (h : b ∈ utf8 "$" ++ Numeral.hex width address) : b ≠ 0x20 := by
  rintro rfl
  rcases List.mem_append.1 h with h | h
  · exact absurd h (by decide)
  · exact absurd (Numeral.isHexDigit_of_mem_hex h) (by decide)

/-- From its first space on a row consists of the gap and the instruction. -/
theorem dropWhile_text (l : Line) (width : Nat) :
    (l.text width).dropWhile (· ≠ 0x20) = utf8 "    " ++ l.instruction.text := by
  have hgap : utf8 "    " = 0x20 :: [0x20, 0x20, 0x20] := by decide
  rw [text, List.append_assoc,
    List.dropWhile_append_of_pos (fun b hb => decide_eq_true (ne_space_of_mem_address hb)), hgap]
  rfl

theorem instruction_text_eq {l l' : Line} {width width' : Nat}
    (h : l.text width = l'.text width') : l.instruction.text = l'.instruction.text := by
  have hgap := congrArg (List.dropWhile (· ≠ 0x20)) h
  rw [dropWhile_text, dropWhile_text] at hgap
  exact List.append_cancel_left hgap

theorem newline_notMem_text (l : Line) (width : Nat) : newline ∉ l.text width := by
  simp only [text, List.mem_append, not_or]
  refine ⟨⟨⟨by decide, ?_⟩, by decide⟩, l.instruction.newline_notMem_text⟩
  intro hmem
  exact absurd (Numeral.isHexDigit_of_mem_hex hmem) (by decide)

/-- The row shows the line: behind the dollar sign stand hexadecimal digits that are its address,
and behind a gap the text of its instruction. -/
structure ShownBy (l : Line) (digits row : Bytes) : Prop where
  row_eq : row = utf8 "$" ++ digits ++ utf8 "    " ++ l.instruction.text
  isHexDigit : ∀ b ∈ digits, Numeral.isHexDigit b = true
  value_eq : Numeral.value 16 digits = l.address

theorem shownBy_text (l : Line) (width : Nat) :
    l.ShownBy (Numeral.hex width l.address) (l.text width) where
  row_eq := rfl
  isHexDigit _ hb := Numeral.isHexDigit_of_mem_hex hb
  value_eq := Numeral.value_hex width l.address

theorem text_ne_nil (l : Line) (width : Nat) : l.text width ≠ [] := by
  have hdollar : utf8 "$" = [0x24] := by decide
  simp [text, hdollar]

end Line

namespace Program

theorem rows_eq (p : Program) :
    p.rows = (linesFrom baseAddress p.instructions).map (Line.text p.width) := by
  rw [rows, lines_eq_linesFrom]

theorem newline_notMem_rows (p : Program) : ∀ row ∈ p.rows, newline ∉ row := by
  intro row hrow
  obtain ⟨l, _, rfl⟩ := List.mem_map.1 hrow
  exact l.newline_notMem_text _

theorem nil_notMem_rows (p : Program) : [] ∉ p.rows := by
  intro h
  obtain ⟨l, _, hl⟩ := List.mem_map.1 h
  exact l.text_ne_nil _ hl

/-- A listing is cut into its rows at the newlines. -/
theorem splitOn_listing {p : Program} (hne : p.rows ≠ []) : p.listing.splitOn newline = p.rows := by
  rw [listing_eq_intercalate]
  exact List.splitOn_intercalate newline p.newline_notMem_rows hne

theorem listing_ne_nil {p : Program} (hne : p.rows ≠ []) : p.listing ≠ [] := by
  intro hnil
  have hrows := splitOn_listing hne
  rw [hnil] at hrows
  apply p.nil_notMem_rows
  rw [← hrows]
  exact List.mem_cons_self

theorem rows_eq_of_listing_eq {p q : Program} (h : p.listing = q.listing) : p.rows = q.rows := by
  have listing_nil {r : Program} (hr : r.rows = []) : r.listing = [] := by
    rw [listing_eq_intercalate, hr]
    rfl
  by_cases hprows : p.rows = []
  · by_cases hqrows : q.rows = []
    · rw [hprows, hqrows]
    · rw [listing_nil hprows] at h
      exact absurd h.symm (listing_ne_nil hqrows)
  · by_cases hqrows : q.rows = []
    · rw [listing_nil hqrows] at h
      exact absurd h (listing_ne_nil hprows)
    · rw [← splitOn_listing hprows, ← splitOn_listing hqrows, h]

theorem shown_eq_of_rows_eq {is js : List Instruction} (his : ∀ i ∈ is, i.WellFormed)
    (hjs : ∀ j ∈ js, j.WellFormed) {width width' : Nat} :
    ∀ {address address' : Nat},
      (linesFrom address is).map (Line.text width) =
        (linesFrom address' js).map (Line.text width') →
      is.map Instruction.shown = js.map Instruction.shown := by
  induction is generalizing js with
  | nil =>
    intro _ _ h
    cases js with
    | nil => rfl
    | cons j js => cases h
  | cons i is ih =>
    intro _ _ h
    cases js with
    | nil => cases h
    | cons j js =>
      obtain ⟨hrow, hrows⟩ := List.cons.inj h
      have htext := Line.instruction_text_eq hrow
      rw [List.map_cons, List.map_cons,
        Instruction.shown_eq_of_text_eq (his i List.mem_cons_self) (hjs j List.mem_cons_self) htext,
        ih (fun i' hi => his i' (List.mem_cons_of_mem i hi))
          (fun j' hj => hjs j' (List.mem_cons_of_mem j hj)) hrows]

theorem shown_eq_of_listing_eq {p q : Program} (hp : ∀ i ∈ p.instructions, i.WellFormed)
    (hq : ∀ i ∈ q.instructions, i.WellFormed) (h : p.listing = q.listing) :
    p.instructions.map Instruction.shown = q.instructions.map Instruction.shown := by
  have hrows := rows_eq_of_listing_eq h
  rw [rows_eq, rows_eq] at hrows
  exact shown_eq_of_rows_eq hp hq hrows

theorem linesFrom_text_eq {is js : List Instruction}
    (h : is.map Instruction.shown = js.map Instruction.shown) (width address : Nat) :
    (linesFrom address is).map (Line.text width) =
      (linesFrom address js).map (Line.text width) := by
  induction is generalizing js address with
  | nil =>
    cases js with
    | nil => rfl
    | cons j js => cases h
  | cons i is ih =>
    cases js with
    | nil => cases h
    | cons j js =>
      obtain ⟨hshown, hrest⟩ := List.cons.inj h
      simp only [linesFrom, List.map_cons, Line.text, Instruction.text_eq_of_shown_eq hshown,
        Instruction.size_eq_of_shown_eq hshown]
      rw [ih hrest]

/-- Nothing but the size and what is shown of the instructions enters a listing. -/
theorem listing_eq_of_shown_eq {p q : Program} (hsize : p.size = q.size)
    (h : p.instructions.map Instruction.shown = q.instructions.map Instruction.shown) :
    p.listing = q.listing := by
  rw [listing_eq_intercalate, listing_eq_intercalate, rows_eq, rows_eq, width, width, hsize,
    linesFrom_text_eq h]

theorem decode_nil : decode [] ([] : Bytes).length = .ok ⟨[], 0⟩ :=
  decode_eq_ok_iff.2 ⟨by simp, rfl, Nat.le_refl _, rfl⟩

/-- The listing of code is that of the program decoded from all of it, also if there is no code. -/
theorem disassemble_of_decode {code : Bytes} {p : Program}
    (h : decode code code.length = .ok p) : disassemble code = .ok p.listing := by
  cases code with
  | nil =>
    rw [decode_nil] at h
    cases h
    rfl
  | cons b code => rw [disassemble, if_neg (by simp), h]

theorem exists_decode_of_disassemble {code text : Bytes} (h : disassemble code = .ok text) :
    ∃ p, decode code code.length = .ok p ∧ text = p.listing := by
  cases hp : decode code code.length with
  | ok p =>
    rw [disassemble_of_decode hp] at h
    exact ⟨p, rfl, (Except.ok.inj h).symm⟩
  | error f =>
    cases code with
    | nil =>
      rw [decode_nil] at hp
      cases hp
    | cons b code =>
      rw [disassemble, if_neg (by simp), hp] at h
      cases h

end Program

/-! ## Bytes in which programs with the same listing differ -/

namespace Instruction

theorem mode?_opcode_of_wellFormed {i : Instruction} (h : i.WellFormed) :
    Opcode.mode? i.opcode = i.operand.bind Operand.mode := by
  obtain ⟨op, payload, _, rfl⟩ := wellFormed_iff_read.1 h
  cases hm : Opcode.mode? op with
  | none => simp [read_of_none hm, ofOpcode, hm]
  | some m => simp [read_of_some hm, ofOpcode, hm, Operand.ofPayload]

theorem eq_or_alias_of_shown_eq {i j : Instruction} (hi : i.WellFormed) (hj : j.WellFormed)
    (h : i.shown = j.shown) : i.opcode = j.opcode ∨ Opcode.Alias i.opcode j.opcode := by
  obtain ⟨hm, ho⟩ := Prod.mk.inj h
  rw [hi.1, hj.1] at hm
  apply Opcode.same_shape_iff.1
  refine ⟨Option.some.inj hm, ?_⟩
  rw [mode?_opcode_of_wellFormed hi, mode?_opcode_of_wellFormed hj, ho]

/-- Instructions that are shown alike have the same payload. -/
theorem tail_encode_eq_of_shown_eq {i j : Instruction} (h : i.shown = j.shown) :
    i.encode.tail = j.encode.tail := by
  obtain ⟨_, ho⟩ := Prod.mk.inj h
  simp only [encode, ho, List.tail_cons]

theorem encode_eq_cons_tail (i : Instruction) : i.encode = i.opcode :: i.encode.tail := rfl

/-- Where the code of two lists of instructions that are shown alike differs, instructions start. -/
theorem differ_at_start {is js : List Instruction} (h : is.map shown = js.map shown) {k : Nat}
    {x y : UInt8} (hx : (is.flatMap encode)[k]? = some x) (hy : (js.flatMap encode)[k]? = some y)
    (hne : x ≠ y) :
    ∃ (n : Nat) (i j : Instruction), is[n]? = some i ∧ js[n]? = some j ∧ i.shown = j.shown ∧
      x = i.opcode ∧ y = j.opcode ∧
      k = ((is.take n).flatMap encode).length ∧ k = ((js.take n).flatMap encode).length := by
  induction is generalizing js k with
  | nil => cases hx
  | cons i is ih =>
    cases js with
    | nil => cases hy
    | cons j js =>
      obtain ⟨hshown, hrest⟩ := List.cons.inj h
      have htail := tail_encode_eq_of_shown_eq hshown
      have hsize := size_eq_of_shown_eq hshown
      rw [List.flatMap_cons] at hx hy
      by_cases hk : k < i.size
      · rw [List.getElem?_append_left (by rw [length_encode]; omega)] at hx hy
        cases k with
        | zero =>
          refine ⟨0, i, j, rfl, rfl, hshown, ?_, ?_, rfl, rfl⟩
          · exact (Option.some.inj hx).symm
          · exact (Option.some.inj hy).symm
        | succ k =>
          -- Behind the opcode stands the payload, which the two instructions share.
          rw [encode_eq_cons_tail, List.getElem?_cons_succ] at hx hy
          rw [htail, hy] at hx
          exact absurd (Option.some.inj hx).symm hne
      · rw [List.getElem?_append_right (by rw [length_encode]; omega), length_encode] at hx hy
        rw [← hsize] at hy
        obtain ⟨n, i', j', hi, hj, hs, hox, hoy, hkx, hky⟩ := ih hrest hx hy
        refine ⟨n + 1, i', j', hi, hj, hs, hox, hoy, ?_, ?_⟩
        · rw [List.take_succ_cons, List.flatMap_cons, List.length_append, length_encode]
          omega
        · rw [List.take_succ_cons, List.flatMap_cons, List.length_append, length_encode]
          omega

end Instruction

theorem alias_of_differ {a b : Bytes} {is js : List Instruction} (hcut : Cut a is [])
    (hcut' : Cut b js []) (h : is.map Instruction.shown = js.map Instruction.shown) {k : Nat}
    {x y : UInt8} (hx : a[k]? = some x) (hy : b[k]? = some y) (hne : x ≠ y) :
    Opcode.Alias x y ∧ ∃ n, Boundary a n k ∧ Boundary b n k := by
  rw [hcut.eq_append, List.append_nil] at hx
  rw [hcut'.eq_append, List.append_nil] at hy
  obtain ⟨n, i, j, hi, hj, hshown, rfl, rfl, hk, hk'⟩ := Instruction.differ_at_start h hx hy hne
  have hwf := hcut.wellFormed i (List.mem_of_getElem? hi)
  have hwf' := hcut'.wellFormed j (List.mem_of_getElem? hj)
  have hn := (List.getElem?_eq_some_iff.1 hi).1
  have hn' := (List.getElem?_eq_some_iff.1 hj).1
  constructor
  · exact (Instruction.eq_or_alias_of_shown_eq hwf hwf' hshown).resolve_left hne
  · refine ⟨n, (Boundary.iff_of_cut hcut).2 ⟨?_, hk⟩, (Boundary.iff_of_cut hcut').2 ⟨?_, hk'⟩⟩
    · exact Nat.le_of_lt hn
    · exact Nat.le_of_lt hn'

/-- A listing determines the program up to opcode aliases. -/
theorem disassemble_determines (a b la lb : Bytes) (ha : disassemble a = .ok la)
    (hb : disassemble b = .ok lb) :
    ∃ p q : Program, Program.decode a a.length = .ok p ∧ Program.decode b b.length = .ok q ∧
      (la = lb ↔ p.instructions.map Instruction.shown = q.instructions.map Instruction.shown) ∧
      (la = lb → a.length = b.length ∧
        ∀ (k : Nat) (x y : UInt8), a[k]? = some x → b[k]? = some y → x ≠ y →
          Opcode.Alias x y ∧ ∃ n, Boundary a n k ∧ Boundary b n k) := by
  obtain ⟨p, hp, rfl⟩ := Program.exists_decode_of_disassemble ha
  obtain ⟨q, hq, rfl⟩ := Program.exists_decode_of_disassemble hb
  have hcut := Program.cut_of_decode hp
  have hcut' := Program.cut_of_decode hq
  have hshown : p.listing = q.listing →
      p.instructions.map Instruction.shown = q.instructions.map Instruction.shown :=
    Program.shown_eq_of_listing_eq hcut.wellFormed hcut'.wellFormed
  have hlength (h : p.instructions.map Instruction.shown = q.instructions.map Instruction.shown) :
      a.length = b.length := by
    rw [hcut.length_eq, hcut'.length_eq, Instruction.length_flatMap_encode,
      Instruction.length_flatMap_encode, Instruction.map_size_eq_of_shown_eq h]
  refine ⟨p, q, hp, hq, ⟨hshown, ?_⟩, ?_⟩
  · intro h
    obtain ⟨_, _, _, hpsize⟩ := Program.decode_eq_ok_iff.1 hp
    obtain ⟨_, _, _, hqsize⟩ := Program.decode_eq_ok_iff.1 hq
    refine Program.listing_eq_of_shown_eq ?_ h
    rw [hpsize, hqsize, hlength h]
  · intro h
    exact ⟨hlength (hshown h), fun k x y hx hy hne =>
      alias_of_differ hcut hcut' (hshown h) hx hy hne⟩

/-- Two programs with one listing, which differ in the bytes of a NOP and an SBC. -/
theorem disassemble_determines_nop_sbc :
    disassemble [0xEA, 0xE9, 0x42] = disassemble [0x1A, 0xEB, 0x42] ∧
      Opcode.Alias 0xEA 0x1A ∧ Opcode.Alias 0xE9 0xEB := by
  have ha : disassemble [0xEA, 0xE9, 0x42] = .ok (Program.listing
      ⟨[⟨0xEA, some .nop, none⟩, ⟨0xE9, some .sbc, some ⟨some .immediate, 0x42⟩⟩], 3⟩) :=
    Program.disassemble_of_decode (Program.decode_eq_ok_iff.2 ⟨by decide, rfl, by decide, rfl⟩)
  have hb : disassemble [0x1A, 0xEB, 0x42] = .ok (Program.listing
      ⟨[⟨0x1A, some .nop, none⟩, ⟨0xEB, some .sbc, some ⟨some .immediate, 0x42⟩⟩], 3⟩) :=
    Program.disassemble_of_decode (Program.decode_eq_ok_iff.2 ⟨by decide, rfl, by decide, rfl⟩)
  have hsame : disassemble [0xEA, 0xE9, 0x42] = disassemble [0x1A, 0xEB, 0x42] := by
    rw [ha, hb]
    decide +kernel
  obtain ⟨_, _, _, _, _, hdiffer⟩ := disassemble_determines _ _ _ _ ha hb
  obtain ⟨_, halias⟩ := hdiffer (Except.ok.inj (ha.symm.trans (hsame.trans hb)))
  exact ⟨hsame, (halias 0 0xEA 0x1A rfl rfl (by decide)).1,
    (halias 1 0xE9 0xEB rfl rfl (by decide)).1⟩

end Disasm6502
