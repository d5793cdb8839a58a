import Disasm6502.Proofs.Composition
import Disasm6502.Proofs.RunCourse
import Disasm6502.Proofs.RunOutput

/-!
The PRG-ROM is all of an image that reaches the listing. The size that the header declares for it is
its length (`prgSize_eq_length`), so a run to standard output is a function of these bytes and of
standard output alone (`run_eq_listPrg`), and decoding can only fail at an instruction that the last
bytes of the PRG-ROM do not complete (`decode_length_error`).
-/

namespace Disasm6502

theorem Image.prgSize_eq_length {data : Bytes} {i : Image} (h : parse data = .ok i) :
    i.header.prgSize = i.prg.length :=
  (parse_eq_ok_iff.1 h).2.prg_length.symm

/-- Decoding all of the code fails at its last byte or at the byte before, for want of one or two
bytes. -/
theorem Program.decode_length_error {code : Bytes} {f : DecodeFailure}
    (h : decode code code.length = .error f) :
    ∃ position needed, f.cause = .unexpectedEnd position needed ∧ 1 ≤ position ∧
      position ≤ code.length ∧ (needed = 1 ∨ needed = 2) ∧
      (f.offset + 1 = code.length ∨ f.offset + 2 = code.length) := by
  obtain ⟨is, op, rest, hcut, hincomplete, rfl⟩ := exists_cut_of_decode_error h
  have hlength := hcut.length_eq
  have hthree := Opcode.length_le_three op
  rw [List.length_cons] at hlength
  refine ⟨_, _, rfl, ?_, ?_, ?_, ?_⟩
  · omega
  · omega
  · omega
  · show (is.flatMap Instruction.encode).length + 1 = code.length ∨
      (is.flatMap Instruction.encode).length + 2 = code.length
    omega

namespace Console

/-- Result and standard output of a run that lists a PRG-ROM to standard output. -/
def listPrg (prg : Bytes) (stdout : Sink) : Except RunError Unit × Sink :=
  match Program.decode prg prg.length with
  | .error f => (.error (.undecodable f), stdout)
  | .ok p =>
    (if stdout.fits p.output then .ok () else .error .outputFull, stdout.write p.output)

theorem run_eq_listPrg {c : Console} {input : String} {data : Bytes} {i : Image}
    (h : c.files.Holds input data i) (header : Bool) :
    ((c.run input "" header).1, (c.run input "" header).2.stdout) = listPrg i.prg c.stdout := by
  have hsize := Image.prgSize_eq_length h.parse_eq
  rw [listPrg, ← hsize]
  cases hdecode : Program.decode i.prg i.header.prgSize with
  | error f =>
    rw [run_of_decode_error h.not_blank h.load_eq hdecode]
    simp only [stdout_loaded]
  | ok p =>
    rw [run_of_decode_ok h.not_blank h.load_eq hdecode]
    simp only [emit, if_true, stdout_decoded]

/-- A listing that standard output takes can only be missing because the code is cut off. -/
theorem listPrg_cases {stdout : Sink} (hroom : stdout.room = none) (prg : Bytes) :
    (listPrg prg stdout).1 = .ok () ∨
      ∃ f position needed, (listPrg prg stdout).1 = .error (.undecodable f) ∧
        f.cause = .unexpectedEnd position needed := by
  unfold listPrg
  cases hdecode : Program.decode prg prg.length with
  | error f =>
    obtain ⟨position, needed, hcause⟩ := Program.cause_of_decode_error hdecode
    exact .inr ⟨f, position, needed, rfl, hcause⟩
  | ok p =>
    left
    simp only [Sink.fits, hroom, if_true]

theorem holds_of_undecodable {c : Console} {input output : String} {header : Bool}
    {f : DecodeFailure} (h : (c.run input output header).1 = .error (.undecodable f)) :
    ∃ data i, c.files.Holds input data i ∧
      Program.decode i.prg i.header.prgSize = .error f := by
  obtain ⟨result, reached, after, shown, hcourse, hrun⟩ :=
    exists_course c.files c.stdout input output header
  have hresult : (c.run input output header).1 = result :=
    congrArg Prod.fst (hrun c.recorder c.errors)
  rw [← hresult, h] at hcourse
  cases hcourse with
  | undecodable hholds hdecode => exact ⟨_, _, hholds, hdecode⟩

/-- Two images with the same PRG-ROM are listed the same or refused with the same error, whatever
else is in them. The code is never shorter than declared: if it cannot be decoded, one or two bytes
are missing to an instruction that starts at one of its last two bytes. -/
theorem run_stdout_of_prg :
    (∀ (c₁ c₂ : Console) (input₁ input₂ : String) (header₁ header₂ : Bool) (data₁ data₂ : Bytes)
        (i₁ i₂ : Image), c₁.files.Holds input₁ data₁ i₁ → c₂.files.Holds input₂ data₂ i₂ →
      i₁.prg = i₂.prg → c₁.stdout = c₂.stdout →
      (c₁.run input₁ "" header₁).1 = (c₂.run input₂ "" header₂).1 ∧
        (c₁.run input₁ "" header₁).2.stdout = (c₂.run input₂ "" header₂).2.stdout ∧
        (c₁.stdout.room = none →
          (c₁.run input₁ "" header₁).1 = .ok () ∨
            ∃ f position needed, (c₁.run input₁ "" header₁).1 = .error (.undecodable f) ∧
              f.cause = .unexpectedEnd position needed)) ∧
      (∀ data i, Image.parse data = .ok i → i.header.prgSize = i.prg.length) ∧
      ∀ (c : Console) (input output : String) (header : Bool) (f : DecodeFailure),
        (c.run input output header).1 = .error (.undecodable f) →
        ∃ data i position needed, c.files.Holds input data i ∧
          f.cause = .unexpectedEnd position needed ∧ 1 ≤ position ∧
          position ≤ i.header.prgSize ∧ (needed = 1 ∨ needed = 2) ∧
          (f.offset + 1 = i.header.prgSize ∨ f.offset + 2 = i.header.prgSize) ∧
          f.message = utf8 "instruction " ++ Numeral.decimal f.index ++ utf8 " at $" ++
            Numeral.hex 4 (0x8000 + f.offset) ++ utf8 ": " ++ f.cause.message := by
  refine ⟨?_, fun data i => Image.prgSize_eq_length, ?_⟩
  · intro c₁ c₂ input₁ input₂ header₁ header₂ data₁ data₂ i₁ i₂ h₁ h₂ hprg hstdout
    have hrun₁ := run_eq_listPrg h₁ header₁
    have hrun₂ := run_eq_listPrg h₂ header₂
    rw [← hprg, ← hstdout, ← hrun₁] at hrun₂
    obtain ⟨hresult, hout⟩ := Prod.mk.inj hrun₂
    refine ⟨hresult.symm, hout.symm, fun hroom => ?_⟩
    have hfst := congrArg Prod.fst hrun₁
    simp only at hfst
    rw [hfst]
    exact listPrg_cases hroom i₁.prg
  · intro c input output header f h
    obtain ⟨data, i, hholds, hdecode⟩ := holds_of_undecodable h
    have hsize := Image.prgSize_eq_length hholds.parse_eq
    rw [hsize] at hdecode
    obtain ⟨position, needed, hcause, hpos, hle, hneeded, hoffset⟩ :=
      Program.decode_length_error hdecode
    rw [← hsize] at hle hoffset
    exact ⟨data, i, position, needed, hholds, hcause, hpos, hle, hneeded, hoffset, rfl⟩

/-- A bank of `NOP` with a jump at its end that lacks its address. -/
def jumpBank : Bytes := List.replicate 16383 0xEA ++ [0x4C]

theorem length_jumpBank : jumpBank.length = 16384 := by
  rw [jumpBank, List.length_append, List.length_replicate]
  rfl

theorem decode_jumpBank :
    Program.decode jumpBank 16384 = .error ⟨16383, 16383, .unexpectedEnd 16384 2⟩ := by
  have hnops : (List.replicate 16383 (Instruction.ofOpcode 0xEA none)).flatMap
      Instruction.encode = List.replicate 16383 0xEA := by
    rw [List.flatMap_replicate]
    exact List.flatten_replicate_singleton
  have hcut : Cut jumpBank (List.replicate 16383 (.ofOpcode 0xEA none)) [0x4C] := by
    rw [jumpBank, ← hnops]
    refine cut_flatMap_append ?_ ?_
    · intro i hi
      rw [List.eq_of_mem_replicate hi]
      decide
    · show 1 < Opcode.length 0x4C
      decide
  have hdecode := Program.decode_length_of_cut hcut
  rw [length_jumpBank, if_neg (by decide), hnops, List.length_replicate, List.length_replicate]
    at hdecode
  exact hdecode

/-- A header that announces a trainer and CHR-ROM and has another mapper. -/
def trainerHeader : Bytes := [0x4E, 0x45, 0x53, 0x1A, 1, 1, 0x45, 0x10, 2, 1, 7, 7, 7, 7, 7, 7]

/-- A console with two images of the same PRG-ROM. -/
def twinConsole : Console :=
  ⟨⟨[], [(["plain.nes"], bankHeader ++ jumpBank), (["full.nes"], trainerHeader ++
    List.replicate 512 0x4C ++ jumpBank ++ List.replicate 8192 0x20 ++ [0x34, 0x12])]⟩, .silent,
    .unlimited, some .unlimited⟩

/-- The jump is refused with the same error in both images; neither what follows the PRG-ROM in one
of them nor what stands in front completes it. -/
theorem run_stdout_of_prg_jump :
    (twinConsole.run "plain.nes" "" false).1 =
        .error (.undecodable ⟨16383, 16383, .unexpectedEnd 16384 2⟩) ∧
      (twinConsole.run "full.nes" "" true).1 =
        .error (.undecodable ⟨16383, 16383, .unexpectedEnd 16384 2⟩) := by
  have hplain : twinConsole.files.Holds "plain.nes" (bankHeader ++ jumpBank)
      ⟨.ofBytes bankHeader, [], jumpBank, [], 0⟩ := by
    refine ⟨by decide, rfl, ?_⟩
    have h := @Image.parse_sections bankHeader [] jumpBank [] rfl rfl rfl length_jumpBank rfl []
    simpa only [List.append_nil, List.length_nil] using h
  have hfull : twinConsole.files.Holds "full.nes" (trainerHeader ++ List.replicate 512 0x4C ++
      jumpBank ++ List.replicate 8192 0x20 ++ [0x34, 0x12])
      ⟨.ofBytes trainerHeader, List.replicate 512 0x4C, jumpBank, List.replicate 8192 0x20, 2⟩ :=
    ⟨by decide, rfl, Image.parse_sections rfl rfl List.length_replicate length_jumpBank
      List.length_replicate _⟩
  have hrun : (twinConsole.run "plain.nes" "" false).1 =
      .error (.undecodable ⟨16383, 16383, .unexpectedEnd 16384 2⟩) := by
    rw [run_of_decode_error hplain.not_blank hplain.load_eq decode_jumpBank]
  obtain ⟨hsame, _, _⟩ := run_stdout_of_prg.1 twinConsole twinConsole "plain.nes" "full.nes" false
    true _ _ _ _ hplain hfull rfl rfl
  exact ⟨hrun, hsame.symm.trans hrun⟩

end Console

end Disasm6502
