import Disasm6502.Proofs.DecoderRun

/-!
Code put together from two parts, of which the first can be decoded by itself. The decoder keeps
nothing at the boundary between them: `decode_append` gives the outcome for the whole as the
outcome for the second part, moved behind the first. Instructions are appended, counts and offsets
grow by those of the first part, and what is missing at the end stays the same.
-/

namespace Disasm6502

namespace DecodeError

/-- The same error in code that starts `n` bytes earlier. -/
def shift (n : Nat) : DecodeError → DecodeError
  | invalidEncoding op position allowed => invalidEncoding op (n + position) allowed
  | unexpectedEnd position needed => unexpectedEnd (n + position) needed

theorem shortfall_add (n offset : Nat) (left : Bytes) :
    shortfall (n + offset) left = (shortfall offset left).shift n := by
  cases left with
  | nil => simp [shortfall, shift]
  | cons op rest => simp [shortfall, shift, Int.add_assoc]

end DecodeError

/-- The same failure behind a decoded program of `n` bytes. -/
def DecodeFailure.behind (p : Program) (n : Nat) (f : DecodeFailure) : DecodeFailure :=
  ⟨p.instructions.length + f.index, n + f.offset, f.cause.shift n⟩

/-- Bytes behind the code only concern what was left of it. -/
theorem Cut.append_left {code left y left' : Bytes} {is js : List Instruction}
    (h : Cut code is left) (h' : Cut (left ++ y) js left') : Cut (code ++ y) (is ++ js) left' := by
  induction h with
  | stop _ => exact h'
  | cons hi _ ih =>
    rw [List.append_assoc, List.cons_append]
    exact .cons hi (ih h')

/-- Behind code that is all instructions, a cut goes on with the cut of what follows. -/
theorem Cut.append {a b left : Bytes} {is js : List Instruction} (ha : Cut a is [])
    (hb : Cut b js left) : Cut (a ++ b) (is ++ js) left :=
  ha.append_left hb

namespace Program

/-- All of the code is decoded exactly when its cut leaves nothing. -/
theorem decode_length_of_cut {code left : Bytes} {is : List Instruction} (h : Cut code is left) :
    decode code code.length =
      if left = [] then .ok ⟨is, code.length⟩
      else .error ⟨is.length, (is.flatMap Instruction.encode).length,
        .shortfall (is.flatMap Instruction.encode).length left⟩ := by
  have hcut : Cut (code.take (code.length : Int).toNat) is left := by
    rw [Int.toNat_natCast, List.take_length]
    exact h
  rw [decode_of_cut hcut]
  simp only [Int.toNat_natCast, Nat.le_refl, and_true]

theorem decode_append {a : Bytes} {p : Program} (ha : decode a a.length = .ok p) (b : Bytes) :
    decode (a ++ b) (a.length + b.length) =
      match decode b b.length with
      | .ok q => .ok ⟨p.instructions ++ q.instructions, a.length + b.length⟩
      | .error f => .error (f.behind p a.length) := by
  obtain ⟨js, left, hb⟩ := exists_cut b
  have hcut := cut_of_decode ha
  have hlength : a.length = (p.instructions.flatMap Instruction.encode).length := by
    rw [hcut.length_eq, List.length_nil, Nat.add_zero]
  have hlimit : (a.length : Int) + b.length = (a ++ b).length := by
    rw [List.length_append, Int.natCast_add]
  rw [hlimit, decode_length_of_cut (hcut.append hb), decode_length_of_cut hb]
  by_cases hleft : left = []
  · rw [if_pos hleft, if_pos hleft]
  · rw [if_neg hleft, if_neg hleft]
    simp only [DecodeFailure.behind, List.length_append, List.flatMap_append, ← hlength,
      DecodeError.shortfall_add]

/-- Decoding all of the code fails only behind an opcode whose payload is too short. -/
theorem exists_cut_of_decode_error {code : Bytes} {f : DecodeFailure}
    (h : decode code code.length = .error f) :
    ∃ (is : List Instruction) (op : UInt8) (rest : Bytes), Cut code is (op :: rest) ∧
      rest.length + 1 < Opcode.length op ∧
      f = ⟨is.length, (is.flatMap Instruction.encode).length,
        .shortfall (is.flatMap Instruction.encode).length (op :: rest)⟩ := by
  obtain ⟨is, left, hcut⟩ := exists_cut code
  rw [decode_length_of_cut hcut] at h
  cases left with
  | nil => cases h
  | cons op rest =>
    rw [if_neg (List.cons_ne_nil op rest)] at h
    cases h
    exact ⟨is, op, rest, hcut, hcut.incomplete, rfl⟩

theorem cause_of_decode_error {code : Bytes} {f : DecodeFailure}
    (h : decode code code.length = .error f) :
    ∃ position needed, f.cause = .unexpectedEnd position needed := by
  obtain ⟨is, op, rest, _, _, rfl⟩ := exists_cut_of_decode_error h
  exact ⟨_, _, rfl⟩

/-- Decoding is compositional. Behind decoded code, other code is decoded or refused as it is by
itself, and what is reported about it moves by what stands in front. -/
theorem decode_compositional (a : Bytes) (p : Program) (ha : decode a a.length = .ok p)
    (b : Bytes) :
    ((∃ r, decode (a ++ b) (a.length + b.length) = .ok r) ↔ ∃ q, decode b b.length = .ok q) ∧
      (∀ q, decode b b.length = .ok q →
        decode (a ++ b) (a.length + b.length) =
          .ok ⟨p.instructions ++ q.instructions, a.length + b.length⟩) ∧
      ∀ f, decode b b.length = .error f →
        ∃ position needed, f.cause = .unexpectedEnd position needed ∧
          ∃ g, decode (a ++ b) (a.length + b.length) = .error g ∧
            g.cause = .unexpectedEnd (a.length + position) needed ∧
            g.index = p.instructions.length + f.index ∧ g.offset = a.length + f.offset ∧
            g.message = utf8 "instruction " ++ Numeral.decimal (p.instructions.length + f.index) ++
              utf8 " at $" ++ Numeral.hex 4 (0x8000 + (a.length + f.offset)) ++ utf8 ": " ++
              g.cause.message := by
  have hdecode := decode_append ha b
  refine ⟨?_, ?_, ?_⟩
  · cases hb : decode b b.length with
    | ok q => simp [hdecode, hb]
    | error f => simp [hdecode, hb]
  · intro q hb
    rw [hdecode, hb]
  · intro f hb
    obtain ⟨position, needed, hcause⟩ := cause_of_decode_error hb
    refine ⟨position, needed, hcause, f.behind p a.length, ?_, ?_, rfl, rfl, rfl⟩
    · rw [hdecode, hb]
    · rw [DecodeFailure.behind, hcause, DecodeError.shift]

/-- Behind a load, a jump that lacks its last byte fails one instruction and two bytes later. -/
theorem decode_compositional_load_jump :
    ∃ g, decode ([0xA9, 0x42] ++ [0xEA, 0x4C, 0x00]) 5 = .error g ∧ g.index = 2 ∧ g.offset = 3 ∧
      g.cause = .unexpectedEnd 4 1 := by
  have ha : decode [0xA9, 0x42] 2 = .ok ⟨[⟨0xA9, some .lda, some ⟨some .immediate, 0x42⟩⟩], 2⟩ :=
    decode_eq_ok_iff.2 ⟨by decide, rfl, by decide, rfl⟩
  have hincomplete : Incomplete [0x4C, 0x00] := by
    change 2 < Opcode.length 0x4C
    decide
  have hcut : Cut [0xEA, 0x4C, 0x00] [⟨0xEA, some .nop, none⟩] [0x4C, 0x00] :=
    .cons (i := ⟨0xEA, some .nop, none⟩) (by decide) (.stop hincomplete)
  have hb : decode [0xEA, 0x4C, 0x00] 3 = .error ⟨1, 1, .unexpectedEnd 2 1⟩ :=
    decode_length_of_cut hcut
  obtain ⟨position, needed, hcause, g, hg, hshift, hindex, hoffset, _⟩ :=
    (decode_compositional _ _ ha _).2.2 _ hb
  cases hcause
  exact ⟨g, hg, hindex, hoffset, hshift⟩

end Program

end Disasm6502
