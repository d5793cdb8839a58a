import Disasm6502.Proofs.ListingAddresses
import Disasm6502.Proofs.RunLog

/-!
What parsing an image and decoding a program leave in the log: nothing if they fail, and else a
summary that is true of the result. What the summary of a program counts as undocumented is known
from the opcodes alone (`undocumentedCount_of_decode`), and the bytes it names are those of the
instructions (`size_of_decode`).
-/

namespace Disasm6502

/-- The 19 undocumented instructions that do not jam the processor. -/
def Mnemonic.unofficial : List Mnemonic :=
  [ahx, alr, anc, arr, axs, dcp, isc, las, lax, lxa, rla, rra, sax, shx, shy, slo, sre, tas, xaa]

theorem Mnemonic.undocumented_iff (m : Mnemonic) :
    m.undocumented = true ↔ m ∈ unofficial ∨ m = stp := by
  have hall : ∀ m ∈ all, m.undocumented = true ↔ m ∈ unofficial ∨ m = stp := by decide
  exact hall m m.mem_all

theorem Instruction.undocumented_of_wellFormed {i : Instruction} (h : i.WellFormed) :
    i.undocumented = (Opcode.mnemonic i.opcode).undocumented := by
  rw [undocumented, h.1]
  rfl

namespace Program

variable {code : Bytes} {limit : Int} {p : Program}

theorem undocumentedCount_of_decode (h : decode code limit = .ok p) :
    p.undocumentedCount = p.instructions.countP fun i =>
      Opcode.mnemonic i.opcode ∈ Mnemonic.unofficial ∨ Opcode.mnemonic i.opcode = .stp := by
  obtain ⟨hwf, -, -, -⟩ := decode_eq_ok_iff.1 h
  refine List.countP_congr fun i hi => ?_
  rw [Instruction.undocumented_of_wellFormed (hwf i hi), Mnemonic.undocumented_iff,
    decide_eq_true_iff]

theorem size_of_decode (h : decode code limit = .ok p) :
    p.size = (p.instructions.map Instruction.size).sum := by
  obtain ⟨-, -, -, hsize⟩ := decode_eq_ok_iff.1 h
  rw [hsize, ← length_encode_of_decode h, Instruction.length_flatMap_encode]

theorem summary_of_decode (h : decode code limit = .ok p) :
    p.summary = ⟨utf8 "disassembler", utf8 "decoded " ++ Numeral.decimal p.instructions.length ++
      utf8 " instructions (" ++ Numeral.decimal (p.instructions.countP fun i =>
        Opcode.mnemonic i.opcode ∈ Mnemonic.unofficial ∨ Opcode.mnemonic i.opcode = .stp) ++
      utf8 " undocumented) from " ++ Numeral.decimal (p.instructions.map Instruction.size).sum ++
      utf8 " bytes"⟩ := by
  rw [summary, undocumentedCount_of_decode h, size_of_decode h]
  rfl

end Program

namespace Recorder

/-- Parsing and decoding log nothing unless they succeed. Then the log says what was found: the
header of the image and how many bytes behind its sections were ignored, if there are any, or how
many instructions the program has, how many of them are undocumented and how long they are. -/
theorem parse_and_decode_log {α : Type} (format : Formatter α) (r : Recorder) :
    (∀ data : Bytes,
      match Image.parse data with
      | .error e => r.parseImage data = (.error e, r)
      | .ok i =>
        ∃ k, data.length = 16 + i.trainer.length + i.prg.length + i.chr.length + k ∧
          r.parseImage data = (.ok i, r.calls format (.log ⟨utf8 "cartridge", i.header.text⟩ ::
            if 0 < k then
              [.log ⟨utf8 "cartridge", Numeral.decimal k ++ utf8 " trailing bytes ignored"⟩]
            else []))) ∧
      ∀ (code : Bytes) (limit : Int),
        match Program.decode code limit with
        | .error f => r.decodeProgram code limit = (.error f, r)
        | .ok p =>
          r.decodeProgram code limit = (.ok p, r.calls format [.log ⟨utf8 "disassembler",
            utf8 "decoded " ++ Numeral.decimal p.instructions.length ++ utf8 " instructions (" ++
              Numeral.decimal (p.instructions.countP fun i =>
                Opcode.mnemonic i.opcode ∈ Mnemonic.unofficial ∨
                  Opcode.mnemonic i.opcode = .stp) ++
              utf8 " undocumented) from " ++
              Numeral.decimal (p.instructions.map Instruction.size).sum ++ utf8 " bytes"⟩]) := by
  constructor
  · intro data
    cases h : Image.parse data with
    | error e =>
      simp only [parseImage, h]
      rfl
    | ok i =>
      refine ⟨i.trailing, Image.length_eq_of_parse h, ?_⟩
      simp only [parseImage, h, logging]
      rcases i.messages_cases with ⟨hzero, hi⟩ | ⟨hpos, hi⟩
      · rw [hi, hzero]
        rfl
      · rw [hi, if_pos hpos]
        rfl
  · intro code limit
    cases h : Program.decode code limit with
    | error f =>
      simp only [decodeProgram, h]
      rfl
    | ok p =>
      simp only [decodeProgram, h, logging, Program.summary_of_decode h]
      rfl

end Recorder

end Disasm6502
