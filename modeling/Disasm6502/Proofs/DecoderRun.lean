import Disasm6502.Program.Basic
import Disasm6502.Proofs.InstructionStream

/-!
What the decoder does with a stream. `advance_nil` and `advance_cons` describe one call completely,
`decodeOnto_of_cut` a whole run from any cursor position, and `decode_of_cut` the run from the
start: the decoder returns the instructions of the cut if nothing is left of the code and the limit
is reached, and else reports the instruction that is cut off.
-/

namespace Disasm6502

/-- The error for the incomplete instruction that is all that is left at an offset. -/
def DecodeError.shortfall (offset : Nat) : Bytes → DecodeError
  | [] => .unexpectedEnd offset 1
  | op :: rest => .unexpectedEnd (offset + 1 : Nat) (Opcode.length op - (rest.length + 1) : Nat)

namespace Decoder

/-! ## One call -/

theorem more_iff {d : Decoder} (h : d.error? = none) : d.more = true ↔ d.offset < d.limit := by
  simp [more, h]

theorem resume_of_error?_eq_none {d : Decoder} (h : d.error? = none) :
    d.resume = { d with phase := .awaitingOpcode } := by
  unfold resume
  split
  · rename_i e hp
    simp [error?, Phase.error?, hp] at h
  · rfl

theorem afterOpcode_of_none {op : UInt8} (h : Opcode.mode? op = none) :
    afterOpcode op = .done (.ofOpcode op none) := by
  simp [afterOpcode, Opcode.mode?_eq_none_iff.1 h]

theorem afterOpcode_of_some {op : UInt8} {m : Mode} (h : Opcode.mode? op = some m) :
    afterOpcode op = .awaitingOperand op := by
  simp [afterOpcode, (Opcode.resolve_of_mode?_eq_some h).1]

theorem advance_nil {d : Decoder} (h : d.error? = none) (hrest : d.rest = []) :
    d.advance = { d with phase := .failed (.shortfall d.offset []) } := by
  rw [advance, resume_of_error?_eq_none h]
  simp [step, hrest, DecodeError.shortfall]

/-- A call with bytes left reads the whole instruction at the cursor, or reads its opcode and
fails. -/
theorem advance_cons {d : Decoder} {op : UInt8} {rest : Bytes} (h : d.error? = none)
    (hrest : d.rest = op :: rest) :
    d.advance =
      if rest.length + 1 < Opcode.length op then
        { d with
          offset := d.offset + 1
          rest := rest
          phase := .failed (.shortfall d.offset (op :: rest)) }
      else
        { d with
          offset := d.offset + Opcode.length op
          rest := rest.drop (Opcode.length op - 1)
          phase := .done (.read op (rest.take (Opcode.length op - 1))) } := by
  have hopcode : ({ d with phase := .awaitingOpcode } : Decoder).step =
      { d with offset := d.offset + 1, rest := rest, phase := afterOpcode op } := by
    simp [step, hrest]
  rw [advance, resume_of_error?_eq_none h, hopcode]
  cases hm : Opcode.mode? op with
  | none =>
    have hlen : Opcode.length op = 1 := by simp [Opcode.length, hm, modeSize]
    simp [afterOpcode_of_none hm, step, hlen, Instruction.read_of_none hm]
  | some m =>
    obtain ⟨_, hresolve⟩ := Opcode.resolve_of_mode?_eq_some hm
    have hlen : Opcode.length op = 1 + m.size := by simp [Opcode.length, hm, modeSize]
    simp only [afterOpcode_of_some hm, step, hresolve, List.length_take]
    by_cases hshort : rest.length < m.size
    · have hmin : min m.size rest.length = rest.length := by omega
      rw [if_pos (by omega), if_pos (by omega), hmin]
      simp only [DecodeError.shortfall, hlen]
      rw [show 1 + m.size - (rest.length + 1) = m.size - rest.length by omega]
    · rw [if_neg (by omega), if_neg (by omega), hlen, Nat.add_sub_cancel_left,
        Instruction.read_of_some hm, Nat.add_assoc]

/-- A whole instruction at the cursor is returned and the cursor moves behind it. -/
theorem next_of_wellFormed {d : Decoder} {i : Instruction} {rest : Bytes} (h : d.error? = none)
    (hi : i.WellFormed) (hrest : d.rest = i.encode ++ rest) :
    d.next =
      (.ok i, { d with offset := d.offset + i.size, rest := rest, phase := .done i }) := by
  have hsize := Instruction.size_of_wellFormed hi
  obtain ⟨payload, hlen, hread⟩ := Instruction.exists_read_of_wellFormed hi
  have hencode : i.encode = i.opcode :: payload := by
    rw [hread]
    exact Instruction.encode_read hlen
  rw [hencode, List.cons_append] at hrest
  have hshort : ¬ (payload ++ rest).length + 1 < Opcode.length i.opcode := by
    rw [List.length_append]
    omega
  have hpayload : Opcode.length i.opcode - 1 = payload.length := by omega
  refine next_eq_ok_iff.2 ⟨?_, rfl⟩
  rw [advance_cons h hrest, if_neg hshort, hpayload, List.take_left, List.drop_left, ← hread, hsize]

/-- An incomplete instruction at the cursor is an error, which says what is missing. -/
theorem next_of_incomplete {d : Decoder} (h : d.error? = none) (hrest : Incomplete d.rest) :
    ∃ e, d.next = (.error (.shortfall d.offset d.rest), e) := by
  refine ⟨d.advance, next_eq_error_iff.2 ⟨rfl, ?_⟩⟩
  cases hr : d.rest with
  | nil => rw [advance_nil h hr]
  | cons op rest =>
    have hshort : rest.length + 1 < Opcode.length op := by
      rw [hr] at hrest
      exact hrest
    rw [advance_cons h hr, if_pos hshort]

end Decoder

namespace Program

/-! ## Whole runs -/

theorem decodeOnto_of_not_more {d : Decoder} (h : d.more = false) (done : List Instruction) :
    decodeOnto d done = .ok done.reverse := by
  rw [decodeOnto, if_neg (by simp [h])]

theorem decodeOnto_of_next_ok {d e : Decoder} {i : Instruction} (h : d.more = true)
    (hnext : d.next = (.ok i, e)) (done : List Instruction) :
    decodeOnto d done = decodeOnto e (i :: done) := by
  rw [decodeOnto, if_pos h]
  split
  · rename_i err _ he
    rw [hnext] at he
    cases he
  · rename_i j d' hj
    rw [hnext] at hj
    cases hj
    rfl

theorem decodeOnto_of_next_error {d e : Decoder} {err : DecodeError} (h : d.more = true)
    (hnext : d.next = (.error err, e)) (done : List Instruction) :
    decodeOnto d done = .error ⟨done.length, d.offset, err⟩ := by
  rw [decodeOnto, if_pos h]
  split
  · rename_i err' _ he
    rw [hnext] at he
    cases he
    rfl
  · rename_i j d' hj
    rw [hnext] at hj
    cases hj

/-- A run from any cursor position, the instructions so far held last first. The cursor never
leaves the bytes up to the fence behind the limit. -/
theorem decodeOnto_of_cut {code left : Bytes} {is : List Instruction} (hcut : Cut code is left) :
    ∀ (d : Decoder) (done : List Instruction), d.error? = none → d.rest = code →
      d.offset + code.length ≤ d.limit →
      decodeOnto d done =
        if left = [] ∧ d.offset + code.length = d.limit then .ok (done.reverse ++ is)
        else .error
          ⟨done.length + is.length, d.offset + (is.flatMap Instruction.encode).length,
            .shortfall (d.offset + (is.flatMap Instruction.encode).length) left⟩ := by
  induction hcut with
  | @stop left hleft =>
    intro d done herr hrest hlimit
    by_cases hend : d.offset < d.limit
    -- The limit asks for one more instruction, which is incomplete.
    · obtain ⟨e, hnext⟩ := Decoder.next_of_incomplete herr (hrest ▸ hleft)
      have hnot : ¬ (left = [] ∧ d.offset + left.length = d.limit) := by
        rintro ⟨rfl, h⟩
        simp only [List.length_nil] at h
        omega
      rw [decodeOnto_of_next_error ((Decoder.more_iff herr).2 hend) hnext, if_neg hnot, hrest]
      simp
    · have hnil : left = [] := List.length_eq_zero_iff.1 (by omega)
      have hreach : d.offset + left.length = d.limit := by
        rw [hnil, List.length_nil] at hlimit ⊢
        omega
      have hmore : d.more = false := by
        rw [← Bool.not_eq_true, Decoder.more_iff herr]
        exact hend
      rw [decodeOnto_of_not_more hmore, if_pos ⟨hnil, hreach⟩, List.append_nil]
  | @cons i rest left is hi hcut ih =>
    intro d done herr hrest hlimit
    rw [List.length_append, i.length_encode] at hlimit
    have hpos := i.size_pos
    have hnext := Decoder.next_of_wellFormed herr hi hrest
    rw [decodeOnto_of_next_ok ((Decoder.more_iff herr).2 (by omega)) hnext,
      ih _ (i :: done) rfl rfl (by simp only; omega)]
    simp only [List.length_append, i.length_encode, List.flatMap_cons, List.length_cons,
      List.reverse_cons, List.append_assoc, List.singleton_append, Nat.add_assoc, Nat.add_comm 1]

/-- Decoding follows the cut of the code up to the limit. -/
theorem decode_of_cut {code left : Bytes} {limit : Int} {is : List Instruction}
    (hcut : Cut (code.take limit.toNat) is left) :
    decode code limit =
      if left = [] ∧ limit.toNat ≤ code.length then .ok ⟨is, limit.toNat⟩
      else .error ⟨is.length, (is.flatMap Instruction.encode).length,
        .shortfall (is.flatMap Instruction.encode).length left⟩ := by
  have hrun := decodeOnto_of_cut hcut (.start code limit) [] rfl rfl
    (by simp only [Decoder.start, List.length_take]; omega)
  have hreach : (Decoder.start code limit).offset + (code.take limit.toNat).length =
      (Decoder.start code limit).limit ↔ limit.toNat ≤ code.length := by
    simp only [Decoder.start, List.length_take]
    omega
  have hstart : (Decoder.start code limit).offset = 0 := rfl
  by_cases h : left = [] ∧ limit.toNat ≤ code.length
  · rw [if_pos ⟨h.1, hreach.2 h.2⟩] at hrun
    rw [if_pos h, decode, hrun]
    rfl
  · rw [if_neg (fun h' => h ⟨h'.1, hreach.1 h'.2⟩), hstart, Nat.zero_add, List.length_nil,
      Nat.zero_add] at hrun
    rw [if_neg h, decode, hrun]

theorem cut_encode {p : Program} (h : ∀ i ∈ p.instructions, i.WellFormed) :
    Cut p.encode p.instructions [] := by
  have hcut := cut_flatMap_append h incomplete_nil
  rw [List.append_nil] at hcut
  exact hcut

/-- A run succeeds exactly when the code up to the limit is there and is the code of well-formed
instructions, which are then the result. -/
theorem decode_eq_ok_iff {code : Bytes} {limit : Int} {p : Program} :
    decode code limit = .ok p ↔
      (∀ i ∈ p.instructions, i.WellFormed) ∧ p.encode = code.take limit.toNat ∧
        limit.toNat ≤ code.length ∧ p.size = limit.toNat := by
  constructor
  · intro h
    obtain ⟨is, left, hcut⟩ := exists_cut (code.take limit.toNat)
    rw [decode_of_cut hcut] at h
    split at h
    · rename_i hend
      obtain ⟨rfl, hle⟩ := hend
      cases h
      refine ⟨hcut.wellFormed, ?_, hle, rfl⟩
      rw [encode, hcut.eq_append, List.append_nil]
    · cases h
  · rintro ⟨hwf, hencode, hle, hsize⟩
    have hcut := cut_encode hwf
    rw [hencode] at hcut
    rw [decode_of_cut hcut, if_pos ⟨rfl, hle⟩, ← hsize]

/-- A decoded program is all that there is of the code up to the limit. -/
theorem cut_take_of_decode {code : Bytes} {limit : Int} {p : Program}
    (h : decode code limit = .ok p) : Cut (code.take limit.toNat) p.instructions [] := by
  obtain ⟨hwf, hencode, _, _⟩ := decode_eq_ok_iff.1 h
  rw [← hencode]
  exact cut_encode hwf

theorem cut_of_decode {code : Bytes} {p : Program} (h : decode code code.length = .ok p) :
    Cut code p.instructions [] := by
  have hcut := cut_take_of_decode h
  rw [Int.toNat_natCast, List.take_length] at hcut
  exact hcut

end Program

end Disasm6502
