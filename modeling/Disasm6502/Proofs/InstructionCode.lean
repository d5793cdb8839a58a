import Mathlib.Algebra.Order.Ring.Nat
import Disasm6502.Instruction.Basic

/-!
The code of one instruction. `Instruction.read` puts an instruction together from an opcode byte and
the payload behind it, `Opcode.length` says how long that payload has to be, and
`Instruction.wellFormed_iff_read` identifies the well-formed instructions as those that are read
from a payload of the right length. The first byte of an encoded instruction therefore fixes where
it ends, which is what makes streams of instructions decodable.
-/

namespace Disasm6502

/-! ## Bytes of a word -/

theorem toNat_word (low high : UInt8) : (word low high).toNat = 256 * high.toNat + low.toNat := by
  have hl := low.toNat_lt
  have hh := high.toNat_lt
  have hs : high.toNat <<< 8 < 65536 := by rw [Nat.shiftLeft_eq]; omega
  have hor := Nat.shiftLeft_add_eq_or_of_lt hl high.toNat
  simp only [word, UInt16.toNat_or, UInt16.toNat_shiftLeft, UInt8.toNat_toUInt16]
  rw [show (8 : UInt16).toNat % 16 = 8 from rfl, Nat.mod_eq_of_lt hs, Nat.or_comm, ← hor,
    Nat.shiftLeft_eq]
  omega

theorem toNat_lowByte (w : UInt16) : (lowByte w).toNat = w.toNat % 256 := by simp [lowByte]

theorem toNat_highByte (w : UInt16) : (highByte w).toNat = w.toNat / 256 := by
  have hw := w.toNat_lt
  simp only [highByte, UInt16.toNat_toUInt8, UInt16.toNat_shiftRight]
  rw [show (8 : UInt16).toNat % 16 = 8 from rfl, Nat.shiftRight_eq_div_pow]
  omega

@[simp] theorem lowByte_word (low high : UInt8) : lowByte (word low high) = low := by
  apply UInt8.toNat_inj.1
  have hl := low.toNat_lt
  rw [toNat_lowByte, toNat_word]
  omega

@[simp] theorem highByte_word (low high : UInt8) : highByte (word low high) = high := by
  apply UInt8.toNat_inj.1
  have hl := low.toNat_lt
  rw [toNat_highByte, toNat_word]
  omega

@[simp] theorem word_lowByte_highByte (w : UInt16) : word (lowByte w) (highByte w) = w := by
  apply UInt16.toNat_inj.1
  rw [toNat_word, toNat_lowByte, toNat_highByte]
  omega

/-! ## Operands and their payload -/

namespace Operand

/-- A payload has no byte, one or two. -/
theorem bytes_cases {m : Mode} {bytes : Bytes} (h : bytes.length = m.size) :
    bytes = [] ∨ (∃ low, bytes = [low]) ∨ ∃ low high, bytes = [low, high] := by
  have hsize := m.size_le_two
  rcases bytes with _ | ⟨low, _ | ⟨high, _ | ⟨_, _⟩⟩⟩
  · exact .inl rfl
  · exact .inr (.inl ⟨low, rfl⟩)
  · exact .inr (.inr ⟨low, high, rfl⟩)
  · simp only [List.length_cons] at h
    omega

theorem payload_ofPayload {m : Mode} {bytes : Bytes} (h : bytes.length = m.size) :
    (ofPayload m bytes).payload = bytes := by
  have hsize : (ofPayload m bytes).size = bytes.length := h.symm
  rw [payload, hsize]
  rcases bytes_cases h with rfl | ⟨low, rfl⟩ | ⟨low, high, rfl⟩
  · rfl
  · simp [payloadOf, ofPayload, valueOf, lowByte]
  · simp [payloadOf, ofPayload, valueOf]

theorem value_ofPayload_lt {m : Mode} {bytes : Bytes} (h : bytes.length = m.size) :
    (ofPayload m bytes).value.toNat < Nat.pow 256 m.size := by
  rw [← h]
  rcases bytes_cases h with rfl | ⟨low, rfl⟩ | ⟨low, high, rfl⟩
  · simp [ofPayload, valueOf]
  · simpa [ofPayload, valueOf] using low.toNat_lt
  · simpa [ofPayload, valueOf] using (word low high).toNat_lt

theorem ofPayload_payload {o : Operand} {m : Mode} (hm : o.mode = some m)
    (hv : o.value.toNat < Nat.pow 256 o.size) : ofPayload m o.payload = o := by
  obtain ⟨mode, value⟩ := o
  obtain rfl : mode = some m := hm
  have hs : (⟨some m, value⟩ : Operand).size = m.size := rfl
  rw [hs] at hv
  rw [payload, hs]
  have hsize : m.size = 0 ∨ m.size = 1 ∨ m.size = 2 := by
    have := m.size_le_two
    omega
  rcases hsize with hn | hn | hn <;> rw [hn] at hv ⊢
  · obtain rfl : value = 0 := UInt16.toNat_inj.1 (Nat.lt_one_iff.1 hv)
    rfl
  · have hlow : value = (lowByte value).toUInt16 := by
      apply UInt16.toNat_inj.1
      rw [UInt8.toNat_toUInt16, toNat_lowByte]
      exact (Nat.mod_eq_of_lt hv).symm
    simp [payloadOf, ofPayload, valueOf, ← hlow]
  · simp [payloadOf, ofPayload, valueOf]

end Operand

/-! ## The opcode matrix -/

namespace Opcode

theorem mem_all (op : UInt8) : op ∈ all :=
  List.mem_map.2 ⟨op.toNat, List.mem_range.2 op.toNat_lt, UInt8.ofNat_toNat⟩

/-- Matrix and mode rules agree: an opcode that takes an operand encodes one of its modes. -/
theorem resolve_isSome (op : UInt8) (h : (modes op).isEmpty = false) :
    ((modes op).resolve op).isSome = true := by
  -- A truth value, since the kernel evaluates it much faster than a bounded quantifier.
  have table : (all.all fun op => (modes op).isEmpty || ((modes op).resolve op).isSome) = true := by
    decide +kernel
  have hop := List.all_eq_true.1 table op (mem_all op)
  rw [h, Bool.false_or] at hop
  exact hop

theorem mode?_of_isEmpty {op : UInt8} (h : (modes op).isEmpty = true) : mode? op = none := by
  simp [mode?, h]

theorem mode?_of_not_isEmpty {op : UInt8} (h : (modes op).isEmpty = false) :
    mode? op = (modes op).resolve op := by
  simp [mode?, h]

theorem mode?_eq_none_iff {op : UInt8} : mode? op = none ↔ (modes op).isEmpty = true := by
  constructor
  · intro hn
    cases he : (modes op).isEmpty with
    | true => rfl
    | false =>
      have := resolve_isSome op he
      rw [← mode?_of_not_isEmpty he, hn] at this
      cases this
  · exact mode?_of_isEmpty

theorem resolve_of_mode?_eq_some {op : UInt8} {m : Mode} (h : mode? op = some m) :
    (modes op).isEmpty = false ∧ (modes op).resolve op = some m := by
  have hne : (modes op).isEmpty = false := by
    rw [← Bool.not_eq_true, ← mode?_eq_none_iff, h]
    simp
  exact ⟨hne, by rw [← mode?_of_not_isEmpty hne, h]⟩

theorem length_pos (op : UInt8) : 0 < length op := by simp only [length]; omega

theorem length_le_three (op : UInt8) : length op ≤ 3 := by
  unfold length modeSize
  split
  · rename_i m _
    have hsize := m.size_le_two
    omega
  · omega

end Opcode

/-! ## Instructions and their code -/

namespace Instruction

/-- The instruction of an opcode and the payload behind it. -/
def read (op : UInt8) (payload : Bytes) : Instruction :=
  ofOpcode op ((Opcode.mode? op).map fun m => .ofPayload m payload)

theorem read_of_none {op : UInt8} (h : Opcode.mode? op = none) (payload : Bytes) :
    read op payload = ofOpcode op none := by
  simp [read, h]

theorem read_of_some {op : UInt8} {m : Mode} (h : Opcode.mode? op = some m) (payload : Bytes) :
    read op payload = ofOpcode op (some (.ofPayload m payload)) := by
  simp [read, h]

theorem encode_read {op : UInt8} {payload : Bytes} (h : payload.length + 1 = Opcode.length op) :
    (read op payload).encode = op :: payload := by
  cases hm : Opcode.mode? op with
  | none =>
    simp only [Opcode.length, hm, modeSize] at h
    obtain rfl : payload = [] := List.length_eq_zero_iff.1 (by omega)
    simp [read_of_none hm, encode, ofOpcode]
  | some m =>
    simp only [Opcode.length, hm, modeSize] at h
    have hlen : payload.length = m.size := by omega
    simp [read_of_some hm, encode, ofOpcode, Operand.payload_ofPayload hlen]

theorem wellFormed_read {op : UInt8} {payload : Bytes}
    (h : payload.length + 1 = Opcode.length op) : (read op payload).WellFormed := by
  cases hm : Opcode.mode? op with
  | none =>
    rw [read_of_none hm]
    exact ⟨rfl, Opcode.mode?_eq_none_iff.1 hm⟩
  | some m =>
    obtain ⟨hne, hresolve⟩ := Opcode.resolve_of_mode?_eq_some hm
    simp only [Opcode.length, hm, modeSize] at h
    rw [read_of_some hm]
    exact ⟨rfl, hne, hresolve.symm, rfl, Operand.value_ofPayload_lt (by omega)⟩

/-- A well-formed instruction is what its opcode and its payload are read as. -/
theorem exists_read_of_wellFormed {i : Instruction} (h : i.WellFormed) :
    ∃ payload : Bytes, payload.length + 1 = Opcode.length i.opcode ∧ i = read i.opcode payload := by
  obtain ⟨op, mnemonic, operand⟩ := i
  obtain ⟨hmn, h⟩ := h
  obtain rfl : mnemonic = some (Opcode.mnemonic op) := hmn
  cases operand with
  | none =>
    have hm := Opcode.mode?_of_isEmpty h
    exact ⟨[], by simp [Opcode.length, hm, modeSize], (read_of_none hm []).symm⟩
  | some o =>
    obtain ⟨hne, hmode, hsome, hv⟩ := h
    obtain ⟨m, ho⟩ := Option.isSome_iff_exists.1 hsome
    have hm : Opcode.mode? op = some m := by
      rw [Opcode.mode?_of_not_isEmpty hne, ← hmode, ho]
    have hsize : o.size = m.size := by simp [Operand.size, ho, modeSize]
    refine ⟨o.payload, ?_, ?_⟩
    · simp only [Opcode.length, hm, modeSize, o.length_payload, hsize]
      omega
    · rw [read_of_some hm, Operand.ofPayload_payload ho hv]
      rfl

theorem wellFormed_iff_read {i : Instruction} :
    i.WellFormed ↔ ∃ (op : UInt8) (payload : Bytes),
      payload.length + 1 = Opcode.length op ∧ i = read op payload := by
  constructor
  · intro h
    obtain ⟨payload, hlen, hi⟩ := exists_read_of_wellFormed h
    exact ⟨i.opcode, payload, hlen, hi⟩
  · rintro ⟨op, payload, hlen, rfl⟩
    exact wellFormed_read hlen

theorem length_flatMap_encode (is : List Instruction) :
    (is.flatMap encode).length = (is.map size).sum := by
  induction is with
  | nil => rfl
  | cons i is ih => simp [ih, i.length_encode]

theorem size_of_wellFormed {i : Instruction} (h : i.WellFormed) :
    i.size = Opcode.length i.opcode := by
  obtain ⟨payload, hlen, hi⟩ := exists_read_of_wellFormed h
  rw [← length_encode, hi, encode_read hlen]
  exact hlen

/-- The code of a well-formed instruction in front of other bytes determines the instruction. -/
theorem encode_append_inj {i j : Instruction} (hi : i.WellFormed) (hj : j.WellFormed)
    {a b : Bytes} (h : i.encode ++ a = j.encode ++ b) : i = j ∧ a = b := by
  obtain ⟨op, payload, hlen, rfl⟩ := wellFormed_iff_read.1 hi
  obtain ⟨op', payload', hlen', rfl⟩ := wellFormed_iff_read.1 hj
  rw [encode_read hlen, encode_read hlen', List.cons_append, List.cons_append] at h
  obtain ⟨rfl, htail⟩ := List.cons.inj h
  have hlengths : payload.length = payload'.length := by omega
  obtain ⟨rfl, rfl⟩ := List.append_inj htail hlengths
  exact ⟨rfl, rfl⟩

instance (i : Instruction) : Decidable i.WellFormed :=
  match i with
  | ⟨op, mnemonic, none⟩ =>
    inferInstanceAs (Decidable (mnemonic = some (Opcode.mnemonic op) ∧
      (Opcode.modes op).isEmpty = true))
  | ⟨op, mnemonic, some o⟩ =>
    inferInstanceAs (Decidable (mnemonic = some (Opcode.mnemonic op) ∧
      (Opcode.modes op).isEmpty = false ∧ o.mode = (Opcode.modes op).resolve op ∧
        o.mode.isSome = true ∧ o.value.toNat < Nat.pow 256 o.size))

end Instruction

end Disasm6502
