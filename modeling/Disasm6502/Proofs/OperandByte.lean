import Disasm6502.Proofs.Composition
import Disasm6502.Proofs.ListingRows

/-!
One byte of an operand replaced by another. `Instruction.setByte` is the instruction with that byte
in its payload; it keeps opcode, mnemonic, mode and size, and its text is a different one
(`text_setByte_ne`). Where instructions start is decided by opcodes alone, hence code with a byte of
one payload replaced is cut at the same places (`Cut.setByte`) and listed with the same addresses
(`linesFrom_set`), and no other row changes.
-/

namespace Disasm6502

/-! ## Operands and instructions -/

namespace Operand

/-- The operand with another byte at position `k` of its payload. -/
def setByte (o : Operand) (k : Nat) (b : UInt8) : Operand :=
  match k with
  | 0 => { o with value := word b (highByte o.value) }
  | _ + 1 => { o with value := word (lowByte o.value) b }

theorem mode_setByte (o : Operand) (k : Nat) (b : UInt8) : (o.setByte k b).mode = o.mode := by
  cases k with
  | zero => rfl
  | succ k => rfl

/-- The first byte of a payload is the low half of the value and the second byte the high half. -/
theorem value_setByte (o : Operand) {k : Nat} (hk : k < 2) (b : UInt8) :
    k = 0 ∧ lowByte (o.setByte k b).value = b ∧
        highByte (o.setByte k b).value = highByte o.value ∨
      k = 1 ∧ lowByte (o.setByte k b).value = lowByte o.value ∧
        highByte (o.setByte k b).value = b := by
  rcases k with _ | _ | k
  · simp [setByte]
  · simp [setByte]
  · omega

/-- A value of one byte has nothing in its high half. -/
theorem word_highByte_toUInt16 (low b : UInt8) : word b (highByte low.toUInt16) = b.toUInt16 := by
  apply UInt16.toNat_inj.1
  have hlow := low.toNat_lt
  rw [toNat_word, toNat_highByte, UInt8.toNat_toUInt16, UInt8.toNat_toUInt16]
  omega

/-- The operand of a payload with one byte replaced. -/
theorem ofPayload_set {m : Mode} {payload : Bytes} (h : payload.length = m.size) {k : Nat}
    (hk : k < payload.length) (b : UInt8) :
    ofPayload m (payload.set k b) = (ofPayload m payload).setByte k b := by
  rcases bytes_cases h with rfl | ⟨low, rfl⟩ | ⟨low, high, rfl⟩
  · cases hk
  · obtain rfl : k = 0 := Nat.lt_one_iff.1 hk
    simp [ofPayload, valueOf, setByte, word_highByte_toUInt16]
  · rcases k with _ | _ | k
    · simp [ofPayload, valueOf, setByte]
    · simp [ofPayload, valueOf, setByte]
    · simp only [List.length_cons, List.length_nil] at hk
      omega

end Operand

namespace Instruction

/-- All of an instruction but the value of its operand: opcode, mnemonic, mode and size. -/
def shape (i : Instruction) : UInt8 × Option Mnemonic × Option (Option Mode) × Nat :=
  (i.opcode, i.mnemonic, i.operand.map Operand.mode, i.size)

/-- The instruction with another byte at position `k` of its payload. -/
def setByte (i : Instruction) (k : Nat) (b : UInt8) : Instruction :=
  { i with operand := i.operand.map (·.setByte k b) }

theorem size_setByte (i : Instruction) (k : Nat) (b : UInt8) : (i.setByte k b).size = i.size := by
  cases ho : i.operand with
  | none => simp [setByte, size, operandSize, ho]
  | some o => simp [setByte, size, operandSize, ho, Operand.size, Operand.mode_setByte]

theorem shape_setByte (i : Instruction) (k : Nat) (b : UInt8) :
    (i.setByte k b).shape = i.shape := by
  have hmode : (i.setByte k b).operand.map Operand.mode = i.operand.map Operand.mode := by
    rw [setByte, Option.map_map]
    congr 1
    funext o
    exact o.mode_setByte k b
  simp only [shape, hmode, size_setByte]
  rfl

theorem exists_operand {i : Instruction} (h : 1 < i.size) : ∃ o, i.operand = some o := by
  cases ho : i.operand with
  | none => simp [size, operandSize, ho] at h
  | some o => exact ⟨o, rfl⟩

theorem read_set {op : UInt8} {payload : Bytes} (h : payload.length + 1 = Opcode.length op)
    {k : Nat} (hk : k < payload.length) (b : UInt8) :
    read op (payload.set k b) = (read op payload).setByte k b := by
  cases hm : Opcode.mode? op with
  | none =>
    simp only [Opcode.length, hm, modeSize] at h
    omega
  | some m =>
    simp only [Opcode.length, hm, modeSize] at h
    rw [read_of_some hm, read_of_some hm, Operand.ofPayload_set (by omega) hk]
    rfl

/-- Replacing a byte behind the opcode of a well-formed instruction gives another one. -/
theorem setByte_of_wellFormed {i : Instruction} (h : i.WellFormed) {k : Nat} (hk : k + 1 < i.size)
    (b : UInt8) :
    (i.setByte k b).WellFormed ∧ (i.setByte k b).encode = i.encode.set (k + 1) b := by
  obtain ⟨op, payload, hlen, rfl⟩ := wellFormed_iff_read.1 h
  rw [← length_encode, encode_read hlen, List.length_cons] at hk
  have hset : (payload.set k b).length + 1 = Opcode.length op := by
    rw [List.length_set]
    exact hlen
  rw [← read_set hlen (by omega)]
  refine ⟨wellFormed_read hset, ?_⟩
  rw [encode_read hset, encode_read hlen, List.set_cons_succ]

/-- No change of a payload is hidden by the text. -/
theorem text_setByte_ne {i : Instruction} (h : i.WellFormed) {k : Nat} (hk : k + 1 < i.size)
    {x b : UInt8} (hx : i.encode[k + 1]? = some x) (hne : b ≠ x) :
    (i.setByte k b).text ≠ i.text := by
  intro htext
  obtain ⟨hwf, hencode⟩ := setByte_of_wellFormed h hk b
  have hshown := shown_eq_of_text_eq hwf h htext
  have hsame : i.encode.set (k + 1) b = i.encode := by
    rw [← hencode, encode_eq_cons_tail, tail_encode_eq_of_shown_eq hshown]
    rfl
  have hb : (i.encode.set (k + 1) b)[k + 1]? = some b :=
    List.getElem?_set_self (by rw [length_encode]; exact hk)
  rw [hsame, hx] at hb
  exact hne (Option.some.inj hb).symm

end Instruction

/-! ## Code and rows -/

/-- Code with a byte of one payload replaced is cut at the same places. -/
theorem Cut.setByte {code left : Bytes} {is : List Instruction} (h : Cut code is left) {n : Nat}
    {i : Instruction} (hi : is[n]? = some i) {k : Nat} (hk : k + 1 < i.size) (b : UInt8) :
    Cut (code.set (((is.take n).flatMap Instruction.encode).length + (k + 1)) b)
      (is.set n (i.setByte k b)) left := by
  induction h generalizing n with
  | stop _ => cases hi
  | @cons j rest left is hj hcut ih =>
    cases n with
    | zero =>
      obtain rfl : j = i := Option.some.inj hi
      obtain ⟨hwf, hencode⟩ := Instruction.setByte_of_wellFormed hj hk b
      rw [List.take_zero, List.flatMap_nil, List.length_nil, Nat.zero_add,
        List.set_append_left _ _ (by rw [j.length_encode]; exact hk), ← hencode,
        List.set_cons_zero]
      exact .cons hwf hcut
    | succ n =>
      rw [List.take_succ_cons, List.flatMap_cons, List.length_append, Nat.add_assoc,
        List.set_append_right _ _ (Nat.le_add_right _ _), Nat.add_sub_cancel_left,
        List.set_cons_succ]
      exact .cons hj (ih hi)

/-- A list with one entry replaced by a different one differs just there. -/
theorem getElem?_eq_getElem?_set_iff {α : Type} {xs : List α} {n : Nat} {x y : α}
    (hx : xs[n]? = some x) (hne : y ≠ x) (m : Nat) : xs[m]? = (xs.set n y)[m]? ↔ m ≠ n := by
  constructor
  · rintro h rfl
    rw [List.getElem?_set_self (List.getElem?_eq_some_iff.1 hx).1, hx] at h
    exact hne (Option.some.inj h).symm
  · intro hm
    rw [List.getElem?_set_ne hm.symm]

theorem map_set_of_eq {α β : Type} {f : α → β} {xs : List α} {n : Nat} {x y : α}
    (hx : xs[n]? = some x) (hf : f y = f x) : (xs.set n y).map f = xs.map f := by
  induction xs generalizing n with
  | nil => rfl
  | cons z xs ih =>
    cases n with
    | zero =>
      obtain rfl : z = x := Option.some.inj hx
      rw [List.set_cons_zero, List.map_cons, hf, List.map_cons]
    | succ n => rw [List.set_cons_succ, List.map_cons, ih hx, List.map_cons]

namespace Program

/-- An instruction replaced by one of the same size changes its own row and no address. -/
theorem linesFrom_set {address n : Nat} {is : List Instruction} {l : Line}
    (hl : (linesFrom address is)[n]? = some l) {i : Instruction}
    (hsize : i.size = l.instruction.size) :
    linesFrom address (is.set n i) = (linesFrom address is).set n { l with instruction := i } := by
  induction is generalizing address n with
  | nil => cases hl
  | cons j is ih =>
    cases n with
    | zero =>
      obtain rfl : (⟨address, j⟩ : Line) = l := Option.some.inj hl
      simp only at hsize
      simp only [List.set_cons_zero, linesFrom, hsize]
    | succ n =>
      rw [linesFrom, List.getElem?_cons_succ] at hl
      rw [List.set_cons_succ, linesFrom, ih hl, linesFrom, List.set_cons_succ]

theorem lines_set {p : Program} {n : Nat} {l : Line} (hl : p.lines[n]? = some l) {i : Instruction}
    (hsize : i.size = l.instruction.size) :
    lines { p with instructions := p.instructions.set n i } =
      p.lines.set n { l with instruction := i } := by
  rw [lines_eq_linesFrom] at hl ⊢
  rw [lines_eq_linesFrom]
  exact linesFrom_set hl hsize

theorem rows_set {p : Program} {n : Nat} {l : Line} (hl : p.lines[n]? = some l) {i : Instruction}
    (hsize : i.size = l.instruction.size) :
    rows { p with instructions := p.instructions.set n i } =
      p.rows.set n (Line.text p.width { l with instruction := i }) := by
  rw [rows, lines_set hl hsize, List.map_set]
  rfl

/-- The listings differ in the row of the instruction that is replaced, if the texts differ. -/
theorem splitOn_listing_set {p : Program} {n : Nat} {l : Line} (hl : p.lines[n]? = some l)
    {i : Instruction} (hsize : i.size = l.instruction.size) (htext : i.text ≠ l.instruction.text)
    (m : Nat) :
    (p.listing.splitOn newline)[m]? =
        ((listing { p with instructions := p.instructions.set n i }).splitOn newline)[m]? ↔
      m ≠ n := by
  have hrow : p.rows[n]? = some (l.text p.width) := by
    rw [rows, List.getElem?_map, hl]
    rfl
  have hpos : 0 < p.rows.length := Nat.zero_lt_of_lt (List.getElem?_eq_some_iff.1 hrow).1
  have hset := rows_set hl hsize
  have hpos' : 0 < (rows { p with instructions := p.instructions.set n i }).length := by
    rw [hset, List.length_set]
    exact hpos
  rw [splitOn_listing (List.ne_nil_of_length_pos hpos),
    splitOn_listing (List.ne_nil_of_length_pos hpos'), hset]
  apply getElem?_eq_getElem?_set_iff hrow
  intro hsame
  exact htext (Line.instruction_text_eq hsame)

/-- The instruction of a row stands in the code at the address of the row. -/
theorem getElem?_encode_of_decode {code : Bytes} {p : Program}
    (h : decode code code.length = .ok p) {n : Nat} {l : Line} (hl : p.lines[n]? = some l) {j : Nat}
    (hj : j < l.instruction.size) {k : Nat} (hk : 0x8000 + k = l.address + j) :
    l.instruction.encode[j]? = code[k]? := by
  obtain ⟨hi, haddress⟩ := getElem?_lines hl
  have hdrop := (cut_of_decode h).drop_eq_encode_append hi
  rw [haddress, baseAddress] at hk
  rw [show k = ((p.instructions.take n).flatMap Instruction.encode).length + j by omega,
    ← List.getElem?_drop, hdrop,
    List.getElem?_append_left (by rw [Instruction.length_encode]; exact hj)]

/-- A byte at which no instruction starts belongs to the payload of one. -/
theorem exists_payload_byte {code : Bytes} {p : Program} (h : decode code code.length = .ok p)
    {k : Nat} (hk : k < code.length) (hstart : ∀ l ∈ p.lines, l.address ≠ 0x8000 + k) :
    ∃ (n : Nat) (l : Line) (j : Nat), p.lines[n]? = some l ∧ 0x8000 + k = l.address + (j + 1) ∧
      j + 1 < l.instruction.size := by
  obtain ⟨_, _, _, hsize⟩ := decode_eq_ok_iff.1 h
  obtain ⟨l, hl, hge, hlt⟩ := (exists_covers_lines_iff h (0x8000 + k)).2 (by omega)
  obtain ⟨n, hn⟩ := List.mem_iff_getElem?.1 hl
  have hne := hstart l hl
  exact ⟨n, l, 0x8000 + k - l.address - 1, hn, by omega, by omega⟩

/-- Code with a byte of one payload replaced is decoded to the program with that byte replaced. -/
theorem decode_setByte {code : Bytes} {p : Program} (h : decode code code.length = .ok p) {n : Nat}
    {l : Line} (hl : p.lines[n]? = some l) {j : Nat} (hj : j + 1 < l.instruction.size) {k : Nat}
    (hk : 0x8000 + k = l.address + (j + 1)) (b : UInt8) :
    decode (code.set k b) (code.set k b).length =
      .ok { p with instructions := p.instructions.set n (l.instruction.setByte j b) } := by
  obtain ⟨hi, haddress⟩ := getElem?_lines hl
  obtain ⟨_, _, _, hsize⟩ := decode_eq_ok_iff.1 h
  have hcut := (cut_of_decode h).setByte hi hj b
  rw [haddress, baseAddress] at hk
  rw [show k = ((p.instructions.take n).flatMap Instruction.encode).length + (j + 1) by omega,
    decode_length_of_cut hcut, if_pos rfl, List.length_set, hsize, Int.toNat_natCast]

/-- Changing a byte of an operand changes one row only. Code in which a byte that is no opcode is
replaced is decoded to instructions of the same shapes at the same addresses. The one that has the
byte differs in the half of its value that the byte stands for, and no other instruction and no
other row of the listing differs. -/
theorem decode_set_operand_byte (code : Bytes) (p : Program) (h : decode code code.length = .ok p)
    (k : Nat) (x b : UInt8) (hx : code[k]? = some x) (hne : b ≠ x)
    (hstart : ∀ l ∈ p.lines, l.address ≠ 0x8000 + k) :
    ∃ q, decode (code.set k b) (code.set k b).length = .ok q ∧
      q.instructions.length = p.instructions.length ∧
      q.lines.map Line.address = p.lines.map Line.address ∧
      q.instructions.map Instruction.shape = p.instructions.map Instruction.shape ∧
      ∃ (n : Nat) (l : Line) (o o' : Operand), p.lines[n]? = some l ∧ l.Covers (0x8000 + k) ∧
        l.instruction.operand = some o ∧
        q.instructions[n]? = some { l.instruction with operand := some o' } ∧ o'.mode = o.mode ∧
        (0x8000 + k = l.address + 1 ∧ lowByte o'.value = b ∧
            highByte o'.value = highByte o.value ∨
          0x8000 + k = l.address + 2 ∧ lowByte o'.value = lowByte o.value ∧
            highByte o'.value = b) ∧
        (∀ m, p.instructions[m]? = q.instructions[m]? ↔ m ≠ n) ∧
        ∀ m, (p.listing.splitOn newline)[m]? = (q.listing.splitOn newline)[m]? ↔ m ≠ n := by
  have hlt := (List.getElem?_eq_some_iff.1 hx).1
  obtain ⟨n, l, j, hl, hk, hj⟩ := exists_payload_byte h hlt hstart
  obtain ⟨hi, _⟩ := getElem?_lines hl
  have hn := (List.getElem?_eq_some_iff.1 hi).1
  have hwf := (cut_of_decode h).wellFormed _ (List.mem_of_getElem? hi)
  have hbyte : l.instruction.encode[j + 1]? = some x := by
    rw [getElem?_encode_of_decode h hl hj hk]
    exact hx
  have htext := Instruction.text_setByte_ne hwf hj hbyte hne
  have hsize := l.instruction.size_setByte j b
  obtain ⟨o, ho⟩ := Instruction.exists_operand (i := l.instruction) (by omega)
  have hthree := l.instruction.size_le_three
  refine ⟨_, decode_setByte h hl hj hk b, List.length_set, ?_, ?_, n, l, o, o.setByte j b, hl, ?_,
    ho, ?_, o.mode_setByte j b, ?_, ?_, ?_⟩
  · rw [lines_set hl hsize]
    exact map_set_of_eq hl rfl
  · exact map_set_of_eq hi (l.instruction.shape_setByte j b)
  · exact ⟨by omega, by omega⟩
  · rw [List.getElem?_set_self hn, Instruction.setByte, ho]
    rfl
  · rcases o.value_setByte (show j < 2 by omega) b with ⟨rfl, hlow, hhigh⟩ | ⟨rfl, hlow, hhigh⟩
    · exact .inl ⟨hk, hlow, hhigh⟩
    · exact .inr ⟨hk, hlow, hhigh⟩
  · apply getElem?_eq_getElem?_set_iff hi
    intro hsame
    exact htext (congrArg Instruction.text hsame)
  · exact splitOn_listing_set hl hsize htext

/-- The high byte of a jump's address replaced, between two other instructions. -/
theorem decode_set_operand_byte_jump :
    ∃ p q, decode [0xA9, 0x42, 0x4C, 0x34, 0x12, 0xEA] 6 = .ok p ∧
      decode [0xA9, 0x42, 0x4C, 0x34, 0x56, 0xEA] 6 = .ok q ∧
      q.instructions.map Instruction.shape = p.instructions.map Instruction.shape ∧
      ∀ m, (p.listing.splitOn newline)[m]? = (q.listing.splitOn newline)[m]? ↔ m ≠ 1 := by
  have h : decode [0xA9, 0x42, 0x4C, 0x34, 0x12, 0xEA] 6 =
      .ok ⟨[⟨0xA9, some .lda, some ⟨some .immediate, 0x42⟩⟩,
        ⟨0x4C, some .jmp, some ⟨some .absolute, 0x1234⟩⟩, ⟨0xEA, some .nop, none⟩], 6⟩ :=
    decode_eq_ok_iff.2 ⟨by decide, rfl, by decide, rfl⟩
  obtain ⟨q, hq, _, _, hshape, n, l, _, _, hl, hcovers, _, _, _, _, _, hrows⟩ :=
    decode_set_operand_byte _ _ h 4 0x12 0x56 rfl (by decide) (by decide)
  rw [lines_eq_linesFrom] at hl
  have hjump : (⟨0x8002, ⟨0x4C, some .jmp, some ⟨some .absolute, 0x1234⟩⟩⟩ : Line).Covers 0x8004 :=
    ⟨by decide, by decide⟩
  obtain rfl : n = 1 := index_eq_of_covers hl rfl hcovers hjump
  exact ⟨_, q, h, hq, hshape, hrows⟩

end Program

end Disasm6502
