import Disasm6502.Proofs.DecoderRun

/-!
Decoding and encoding undo each other. A decoded program encodes to exactly the bytes it was decoded
from, up to the limit. Conversely every sequence of well-formed instructions is decoded from its
code, whatever follows, and nothing else is ever decoded.
-/

namespace Disasm6502.Program

/-- No byte is lost, doubled or moved by decoding. -/
theorem decode_lossless (code : Bytes) (limit : Int) (p : Program)
    (h : decode code limit = .ok p) :
    p.encode = code.take (max limit 0).toNat ∧ max limit 0 ≤ code.length ∧
      p.size = max limit 0 ∧ p.size = (p.instructions.map Instruction.size).sum := by
  obtain ⟨_, hencode, hle, hsize⟩ := decode_eq_ok_iff.1 h
  have hmax : (limit.toNat : Int) = max limit 0 := Int.toNat_eq_max limit
  have hlength : (p.instructions.map Instruction.size).sum = limit.toNat := by
    rw [← Instruction.length_flatMap_encode, ← encode, hencode, List.length_take,
      Nat.min_eq_left hle]
  rw [← hmax, Int.toNat_natCast]
  refine ⟨hencode, ?_, hsize, ?_⟩
  · exact Int.ofNat_le.2 hle
  · rw [hsize, hlength]

/-- A load and a store with a byte behind the limit. -/
theorem decode_lossless_load_store :
    ∃ p, decode [0xA9, 0x42, 0x8D, 0x00, 0x20, 0xEA] 5 = .ok p ∧
      p.encode = [0xA9, 0x42, 0x8D, 0x00, 0x20] ∧ p.size = 5 := by
  have h : decode [0xA9, 0x42, 0x8D, 0x00, 0x20, 0xEA] 5 =
      .ok ⟨[⟨0xA9, some .lda, some ⟨some .immediate, 0x42⟩⟩,
        ⟨0x8D, some .sta, some ⟨some .absolute, 0x2000⟩⟩], 5⟩ :=
    decode_eq_ok_iff.2 ⟨by decide, rfl, by decide, rfl⟩
  obtain ⟨hencode, _, hsize, _⟩ := decode_lossless _ _ _ h
  exact ⟨_, h, hencode, hsize⟩

/-- Decoding undoes encoding, and the instructions it yields are exactly the well-formed ones. -/
theorem decode_inverts_encode :
    (∀ (is : List Instruction) (rest : Bytes), (∀ i ∈ is, i.WellFormed) →
      decode (is.flatMap Instruction.encode ++ rest) (is.flatMap Instruction.encode).length =
        .ok ⟨is, (is.flatMap Instruction.encode).length⟩) ∧
      ∀ (code : Bytes) (limit : Int) (p : Program), decode code limit = .ok p →
        ∀ i ∈ p.instructions, i.WellFormed := by
  constructor
  · intro is rest hwf
    refine decode_eq_ok_iff.2 ⟨hwf, ?_, ?_, rfl⟩
    · rw [Int.toNat_natCast, List.take_left]
      rfl
    · rw [Int.toNat_natCast, List.length_append]
      omega
  · intro code limit p h
    exact (decode_eq_ok_iff.1 h).1

/-- Operands of every length in a row, with the start of a further instruction behind them. -/
theorem decode_inverts_encode_shift_jump :
    decode [0x0A, 0x1A, 0xA9, 0x42, 0x6C, 0x34, 0x12, 0xA9] 7 =
      .ok ⟨[⟨0x0A, some .asl, some ⟨some .accumulator, 0⟩⟩, ⟨0x1A, some .nop, none⟩,
        ⟨0xA9, some .lda, some ⟨some .immediate, 0x42⟩⟩,
        ⟨0x6C, some .jmp, some ⟨some .indirect, 0x1234⟩⟩], 7⟩ :=
  decode_inverts_encode.1
    [⟨0x0A, some .asl, some ⟨some .accumulator, 0⟩⟩, ⟨0x1A, some .nop, none⟩,
      ⟨0xA9, some .lda, some ⟨some .immediate, 0x42⟩⟩,
      ⟨0x6C, some .jmp, some ⟨some .indirect, 0x1234⟩⟩] [0xA9] (by decide)

end Disasm6502.Program
