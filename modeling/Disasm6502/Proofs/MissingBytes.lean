import Disasm6502.Proofs.Boundary
import Disasm6502.Proofs.Composition

/-!
How far cut-off code is from being complete. Decoding all of the code fails behind the opcode of an
instruction (`exists_cut_of_decode_error`), and bytes appended to the code are cut together with the
bytes that were left (`Cut.append_left`). As long as they are too few the instruction stays
incomplete, and when they are just enough they become its payload and nothing is left. The number
of missing bytes that the error names is therefore exact.
-/

namespace Disasm6502

/-- An opcode with fewer bytes behind it than its instruction takes is left as it is. -/
theorem cut_short {op : UInt8} {payload : Bytes} (h : payload.length + 1 < Opcode.length op) :
    Cut (op :: payload) [] (op :: payload) :=
  .stop h

/-- An opcode with all of its payload is one instruction. -/
theorem cut_whole {op : UInt8} {payload : Bytes} (h : payload.length + 1 = Opcode.length op) :
    Cut (op :: payload) [.read op payload] [] := by
  have hcut : Cut ((Instruction.read op payload).encode ++ []) [.read op payload] [] :=
    .cons (Instruction.wellFormed_read h) (.stop incomplete_nil)
  rw [List.append_nil, Instruction.encode_read h] at hcut
  exact hcut

/-- Every byte that an incomplete instruction gets is one less that it needs. -/
theorem DecodeError.shortfall_append (offset : Nat) {op : UInt8} {rest y : Bytes}
    (h : (rest ++ y).length + 1 < Opcode.length op) :
    shortfall offset (op :: (rest ++ y)) =
      .unexpectedEnd (offset + 1 : Nat)
        ((Opcode.length op - (rest.length + 1) : Nat) - y.length) := by
  rw [List.length_append] at h
  have hneeded : ((Opcode.length op - ((rest ++ y).length + 1) : Nat) : Int) =
      (Opcode.length op - (rest.length + 1) : Nat) - y.length := by
    rw [List.length_append]
    omega
  rw [shortfall, hneeded]

namespace Program

/-- The outcome for code with further bytes behind it. -/
theorem decode_append_of_cut {code y left : Bytes} {is : List Instruction}
    (h : Cut (code ++ y) is left) :
    decode (code ++ y) (code.length + y.length) =
      if left = [] then .ok ⟨is, (code ++ y).length⟩
      else .error ⟨is.length, (is.flatMap Instruction.encode).length,
        .shortfall (is.flatMap Instruction.encode).length left⟩ := by
  rw [← decode_length_of_cut h, List.length_append, Int.natCast_add]

/-- The number of missing bytes is exact. That many bytes, whatever they are, complete the last
instruction and nothing else; with fewer of them the same instruction fails at the same place, and
the number goes down by those that came. -/
theorem decode_needed_exact (code : Bytes) (f : DecodeFailure) (position needed : Int)
    (h : decode code code.length = .error f) (hcause : f.cause = .unexpectedEnd position needed) :
    LastBoundary code code.length f.index f.offset ∧
      (∀ x : Bytes, x.length = needed →
        ∃ p, decode (code ++ x) (code.length + x.length) = .ok p ∧
          p.instructions.length = f.index + 1) ∧
      ∀ y : Bytes, y.length < needed →
        ∃ g, decode (code ++ y) (code.length + y.length) = .error g ∧
          g.cause = .unexpectedEnd position (needed - y.length) ∧ g.index = f.index ∧
          g.offset = f.offset ∧
          g.message = utf8 "instruction " ++ Numeral.decimal f.index ++ utf8 " at $" ++
            Numeral.hex 4 (0x8000 + f.offset) ++ utf8 ": " ++ g.cause.message := by
  obtain ⟨is, op, rest, hcut, hincomplete, rfl⟩ := exists_cut_of_decode_error h
  cases hcause
  refine ⟨?_, ?_, ?_⟩
  · apply lastBoundary_of_cut
    rw [List.take_length]
    exact hcut
  · intro x hx
    have hwhole : (rest ++ x).length + 1 = Opcode.length op := by
      rw [List.length_append]
      omega
    refine ⟨_, decode_append_of_cut (hcut.append_left (cut_whole hwhole)), ?_⟩
    rw [List.length_append]
    rfl
  · intro y hy
    have hshort : (rest ++ y).length + 1 < Opcode.length op := by
      rw [List.length_append]
      omega
    have hcut' : Cut (code ++ y) is (op :: (rest ++ y)) := by
      rw [← List.append_nil is]
      exact hcut.append_left (cut_short hshort)
    have hdecode := decode_append_of_cut hcut'
    rw [if_neg (List.cons_ne_nil _ _)] at hdecode
    exact ⟨_, hdecode, DecodeError.shortfall_append _ hshort, rfl, rfl, rfl⟩

/-- A jump without its address behind a `NOP`: one byte is not enough and two are. -/
theorem decode_needed_exact_jump :
    decode [0xEA, 0x4C] 2 = .error ⟨1, 1, .unexpectedEnd 2 2⟩ ∧
      (∃ p, decode [0xEA, 0x4C, 0x34, 0x12] 4 = .ok p ∧ p.instructions.length = 2) ∧
      ∃ g, decode [0xEA, 0x4C, 0x34] 3 = .error g ∧ g.cause = .unexpectedEnd 2 1 := by
  have hcut : Cut [0xEA, 0x4C] [⟨0xEA, some .nop, none⟩] [0x4C] :=
    .cons (i := ⟨0xEA, some .nop, none⟩) (by decide) (cut_short (by decide))
  have hdecode : decode [0xEA, 0x4C] 2 = .error ⟨1, 1, .unexpectedEnd 2 2⟩ :=
    decode_length_of_cut hcut
  obtain ⟨_, henough, htoo_few⟩ := decode_needed_exact _ _ 2 2 hdecode rfl
  obtain ⟨g, hg, hcause, _⟩ := htoo_few [0x34] (by decide)
  exact ⟨hdecode, henough [0x34, 0x12] rfl, g, hg, hcause⟩

end Program

end Disasm6502
