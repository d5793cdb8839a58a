import Mathlib.Logic.Function.Iterate
import Disasm6502.Decoder.OperandAt
import Disasm6502.Proofs.Boundary

/-!
Runs of the decoder over any number of calls, made whatever `more` says. Every transition moves the
cursor over some of the bytes that are left (`step_eq_moved`), so the decoder stays `Guarded`: the
cursor between the start of the code and the fence, and each read inside the code. What one call
does is `next_cases`; a failed decoder is final (`next_of_failed`).
-/

namespace Disasm6502

theorem Instruction.size_le_three (i : Instruction) : i.size ≤ 3 := by
  cases h : i.operand with
  | none => simp [size, operandSize, h]
  | some o =>
    have := o.size_le_two
    simp only [size, operandSize, h]
    omega

theorem Operand.window?_of_le {code : Bytes} {position n : Nat} (h : position + n ≤ code.length) :
    window? code position n = some ((code.drop position).take n) := by
  have hlength : ((code.drop position).take n).length = n := by
    rw [List.length_take, List.length_drop]
    omega
  simp only [window?, Int.toNat_natCast, hlength]
  rw [if_neg (by omega), if_pos trivial]

/-- The phase agrees with the cursor: an operand is awaited only for an opcode that takes one, and a
failure is about missing bytes at the cursor. -/
def Phase.FitsAt (offset : Nat) : Phase → Prop
  | awaitingOpcode | done _ => True
  | awaitingOperand op => (Opcode.modes op).isEmpty = false
  | failed e => ∃ needed, e = .unexpectedEnd offset needed

namespace Decoder

/-- The decoder with its cursor moved over `n` bytes and in another phase. -/
def moved (d : Decoder) (n : Nat) (p : Phase) : Decoder :=
  { d with offset := d.offset + n, rest := d.rest.drop n, phase := p }

/-- The decoder after `n` calls. -/
def after (code : Bytes) (limit : Int) : Nat → Decoder
  | 0 => start code limit
  | n + 1 => (after code limit n).next.2

/-- What the first `n` calls returned, in order. -/
def outcomes (code : Bytes) (limit : Int) : Nat → List (Except DecodeError Instruction)
  | 0 => []
  | n + 1 => outcomes code limit n ++ [(after code limit n).next.1]

/-- A call as a loop over transitions. A transition that fails leaves the loop at once, and so does
a turn that finds the instruction complete. There is no result if the loop takes more than the given
number of turns or if a turn finds a decoder that has failed. -/
def loop : Nat → Decoder → Option (Except DecodeError Instruction × Decoder)
  | 0, _ => none
  | n + 1, d =>
    match d.phase with
    | .done i => some (.ok i, d)
    | .failed _ => none
    | .awaitingOpcode | .awaitingOperand _ =>
      match d.step.phase with
      | .failed e => some (.error e, d.step)
      | _ => loop n d.step

/-! ## One transition -/

theorem fitsAt_afterOpcode (op : UInt8) (offset : Nat) : (afterOpcode op).FitsAt offset := by
  cases h : (Opcode.modes op).isEmpty with
  | true => simp [afterOpcode, h, Phase.FitsAt]
  | false => simp [afterOpcode, h, Phase.FitsAt]

theorem step_of_settled {d : Decoder} (h : d.phase.Settled) : d.step = d := by
  cases hp : d.phase with
  | done i => simp [step, hp]
  | failed e => simp [step, hp]
  | _ => rw [hp] at h; exact h.elim

/-- A transition moves the cursor over some of the bytes left, and over none if it fails. -/
theorem step_eq_moved {d : Decoder} (h : d.phase.FitsAt d.offset) :
    ∃ n p, n ≤ d.rest.length ∧ p.FitsAt (d.offset + n) ∧ d.step = d.moved n p := by
  cases hp : d.phase with
  | awaitingOpcode =>
    cases hr : d.rest with
    | nil =>
      exact ⟨0, .failed (.unexpectedEnd d.offset 1), Nat.zero_le _, ⟨1, rfl⟩,
        by simp [step, moved, hp, hr]⟩
    | cons op rest =>
      exact ⟨1, afterOpcode op, by simp, fitsAt_afterOpcode op _, by simp [step, moved, hp, hr]⟩
  | awaitingOperand op =>
    rw [hp] at h
    obtain ⟨m, hm⟩ := Option.isSome_iff_exists.1 (Opcode.resolve_isSome op h)
    by_cases hshort : (d.rest.take m.size).length < m.size
    · exact ⟨0, .failed (.unexpectedEnd d.offset (m.size - (d.rest.take m.size).length : Nat)),
        Nat.zero_le _, ⟨_, rfl⟩, by simp only [step, hp, hm, if_pos hshort]; rfl⟩
    · refine ⟨m.size, .done (.ofOpcode op (some (.ofPayload m (d.rest.take m.size)))), ?_, trivial,
        by simp only [step, hp, hm, if_neg hshort]; rfl⟩
      rw [List.length_take] at hshort
      omega
  | done i => exact ⟨0, d.phase, Nat.zero_le _, h, step_of_settled (by rw [hp]; trivial)⟩
  | failed e => exact ⟨0, d.phase, Nat.zero_le _, h, step_of_settled (by rw [hp]; trivial)⟩

/-! ## The invariant -/

/-- The cursor has not left the bytes up to the fence, and what is left are the bytes from the
cursor to the fence. -/
structure Within (code : Bytes) (limit : Int) (d : Decoder) : Prop where
  limit_eq : d.limit = limit.toNat
  offset_le : d.offset ≤ fence code limit
  rest_eq : d.rest = (code.take (fence code limit)).drop d.offset
  fits : d.phase.FitsAt d.offset

theorem fence_le_length (code : Bytes) (limit : Int) : fence code limit ≤ code.length :=
  Nat.min_le_right _ _

namespace Within

variable {code : Bytes} {limit : Int} {d : Decoder}

theorem start (code : Bytes) (limit : Int) : Within code limit (start code limit) where
  limit_eq := rfl
  offset_le := Nat.zero_le _
  rest_eq := by rw [Decoder.start, List.drop_zero, fence, ← List.take_eq_take_min]
  fits := trivial

theorem length_rest (h : Within code limit d) : d.offset + d.rest.length = fence code limit := by
  have hle := h.offset_le
  have hfence := fence_le_length code limit
  rw [h.rest_eq, List.length_drop, List.length_take]
  omega

theorem moved (h : Within code limit d) {n : Nat} {p : Phase} (hn : n ≤ d.rest.length)
    (hp : p.FitsAt (d.offset + n)) : Within code limit (d.moved n p) where
  limit_eq := h.limit_eq
  offset_le := by
    have hlength := h.length_rest
    simp only [Decoder.moved]
    omega
  rest_eq := by simp only [Decoder.moved, h.rest_eq, List.drop_drop]
  fits := hp

theorem step (h : Within code limit d) : Within code limit d.step := by
  obtain ⟨n, p, hn, hp, hstep⟩ := step_eq_moved h.fits
  rw [hstep]
  exact h.moved hn hp

theorem iterate_step (h : Within code limit d) (k : Nat) :
    Within code limit (Decoder.step^[k] d) := by
  induction k with
  | zero => exact h
  | succ k ih =>
    rw [Function.iterate_succ_apply']
    exact ih.step

theorem resume (h : Within code limit d) : Within code limit d.resume := by
  cases hp : d.phase with
  | failed e =>
    have hresume : d.resume = d := by simp [Decoder.resume, hp]
    rw [hresume]
    exact h
  | _ =>
    have hresume : d.resume = d.moved 0 .awaitingOpcode := by
      simp [Decoder.resume, Decoder.moved, hp]
    rw [hresume]
    exact h.moved (Nat.zero_le _) trivial

theorem advance (h : Within code limit d) : Within code limit d.advance := h.resume.step.step

theorem after (code : Bytes) (limit : Int) (n : Nat) : Within code limit (after code limit n) := by
  induction n with
  | zero => exact .start code limit
  | succ n ih => exact ih.advance

/-- Bytes that are left are bytes of the code at the cursor. -/
theorem window? (h : Within code limit d) {n : Nat} (hn : n ≤ d.rest.length) :
    Operand.window? code d.offset n = some (d.rest.take n) := by
  have hlength := h.length_rest
  have hfence := fence_le_length code limit
  have hrest : d.rest.take n = (code.drop d.offset).take n := by
    rw [h.rest_eq, List.drop_take, List.take_take, Nat.min_eq_left (by omega)]
  rw [hrest]
  exact Operand.window?_of_le (by omega)

end Within

/-- The cursor is between the start of the code and the fence, the fence is behind neither the code
nor the limit, and the next transition reads only bytes that the code has. -/
structure Guarded (code : Bytes) (limit : Int) (d : Decoder) : Prop where
  limit_eq : d.limit = max limit 0
  offset_le_fence : d.offset ≤ fence code limit
  fence_le_length : fence code limit ≤ code.length
  fence_le_limit : fence code limit ≤ max limit 0
  rest_eq : d.rest = (code.take (fence code limit)).drop d.offset
  offset_le_step : d.offset ≤ d.step.offset
  read : Operand.window? code d.offset (d.step.offset - d.offset) =
    some (d.rest.take (d.step.offset - d.offset))

theorem Within.guarded {code : Bytes} {limit : Int} {d : Decoder} (h : Within code limit d) :
    Guarded code limit d := by
  obtain ⟨n, p, hn, _, hstep⟩ := step_eq_moved h.fits
  have hread : d.step.offset - d.offset = n := by
    rw [hstep]
    exact Nat.add_sub_cancel_left _ _
  refine ⟨?_, h.offset_le, Decoder.fence_le_length code limit, ?_, h.rest_eq, ?_, ?_⟩
  · rw [h.limit_eq]
    omega
  · rw [fence]
    omega
  · rw [hstep]
    exact Nat.le_add_right _ _
  · rw [hread]
    exact h.window? hn

/-! ## One call -/

theorem error?_eq_none_or (d : Decoder) : d.error? = none ∨ ∃ e, d.phase = .failed e := by
  cases hp : d.phase with
  | failed e => exact .inr ⟨e, rfl⟩
  | _ => simp [error?, Phase.error?, hp]

theorem next_of_failed {d : Decoder} {e : DecodeError} (h : d.phase = .failed e) :
    d.next = (.error e, d) := by
  have hadvance : d.advance = d := by simp [advance, resume, step, h]
  exact next_eq_error_iff.2 ⟨hadvance, h⟩

/-- A decoder that has not failed returns the whole instruction at the cursor, or fails. -/
theorem next_cases {d : Decoder} (h : d.error? = none) :
    (∃ i, d.next.1 = .ok i ∧ d.next.2.offset = d.offset + i.size ∧ d.next.2.error? = none) ∨
      ∃ e, d.next.1 = .error e ∧ d.next.2.phase = .failed e := by
  by_cases hrest : Incomplete d.rest
  · obtain ⟨e, hnext⟩ := next_of_incomplete h hrest
    rw [hnext]
    exact .inr ⟨_, rfl, (next_eq_error_iff.1 hnext).2⟩
  · obtain ⟨i, rest, hi, hcode⟩ := exists_encode_append hrest
    rw [next_of_wellFormed h hi hcode]
    exact .inl ⟨i, rfl, rfl, rfl⟩

theorem offset_of_next_ok {d : Decoder} {i : Instruction} (h : d.next.1 = .ok i) :
    d.next.2.offset = d.offset + i.size := by
  rcases d.error?_eq_none_or with hnone | ⟨e, hfailed⟩
  · rcases next_cases hnone with ⟨j, hj, hoffset, _⟩ | ⟨e, he, _⟩
    · rw [h] at hj
      cases hj
      exact hoffset
    · rw [h] at he
      cases he
  · rw [next_of_failed hfailed] at h
    cases h

theorem phase_of_next_error {d : Decoder} {e : DecodeError} (h : d.next.1 = .error e) :
    d.next.2.phase = .failed e :=
  (next_eq_error_iff.1 (show d.next = (.error e, d.next.2) by rw [← h])).2

theorem loop_of_settled {d : Decoder} (h : d.error? = none) (hnow : d.phase.Settled) (n : Nat)
    (hend : (step^[n] d).phase.Settled) :
    loop (n + 1) d = some ((step^[n] d).phase.outcome hend, step^[n] d) := by
  have hsame := Function.iterate_fixed (step_of_settled hnow) n
  cases hp : d.phase with
  | done i =>
    have hloop : loop (n + 1) d = some (.ok i, d) := by simp only [loop, hp]
    rw [hloop, Phase.outcome_eq_ok_iff.2 (by rw [hsame, hp]), hsame]
  | failed e => simp [error?, Phase.error?, hp] at h
  | _ => rw [hp] at hnow; exact hnow.elim

theorem loop_of_step_failed {d : Decoder} {e : DecodeError} (h : ¬ d.phase.Settled)
    (hstep : d.step.phase = .failed e) (n : Nat) : loop (n + 1) d = some (.error e, d.step) := by
  cases hp : d.phase with
  | awaitingOpcode => simp only [loop, hp, hstep]
  | awaitingOperand op => simp only [loop, hp, hstep]
  | _ => rw [hp] at h; exact absurd trivial h

theorem loop_of_step {d : Decoder} (h : ¬ d.phase.Settled) (hstep : d.step.error? = none)
    (n : Nat) : loop (n + 1) d = loop n d.step := by
  have hnot : ∀ e, d.step.phase ≠ .failed e := by
    intro e he
    simp [error?, Phase.error?, he] at hstep
  cases hp : d.phase with
  | awaitingOpcode => simp only [loop, hp]
  | awaitingOperand op => simp only [loop, hp]
  | _ => rw [hp] at h; exact absurd trivial h

/-- The loop ends with what the transitions lead to, once these are enough to settle it. -/
theorem loop_eq {n : Nat} {d : Decoder} (h : d.error? = none)
    (hsettled : (step^[n] d).phase.Settled) :
    loop (n + 1) d = some ((step^[n] d).phase.outcome hsettled, step^[n] d) := by
  -- On the number of transitions, the decoder being the one at the start of the turn.
  induction n generalizing d with
  | zero => exact loop_of_settled h hsettled 0 hsettled
  | succ n ih =>
    by_cases hnow : d.phase.Settled
    · exact loop_of_settled h hnow (n + 1) hsettled
    · rcases d.step.error?_eq_none_or with hnone | ⟨e, hfailed⟩
      · rw [loop_of_step hnow hnone]
        exact ih hnone hsettled
      · have hend : step^[n + 1] d = d.step :=
          Function.iterate_fixed (step_of_settled (by rw [hfailed]; trivial)) n
        rw [loop_of_step_failed hnow hfailed, Phase.outcome_eq_error_iff.2 (by rw [hend, hfailed]),
          hend]

theorem loop_resume {d : Decoder} (h : d.error? = none) : loop 3 d.resume = some d.next := by
  refine loop_eq (n := 2) ?_ d.settled_advance
  rw [resume_of_error?_eq_none h]
  rfl

/-! ## Whole runs -/

theorem settled_or_awaitingOpcode (code : Bytes) (limit : Int) (n : Nat) :
    (after code limit n).phase = .awaitingOpcode ∨ (∃ i, (after code limit n).phase = .done i) ∨
      ∃ e, (after code limit n).phase = .failed e := by
  cases n with
  | zero => exact .inl rfl
  | succ n =>
    have hsettled := (after code limit n).settled_advance
    cases hp : (after code limit n).advance.phase with
    | done i => exact .inr (.inl ⟨i, hp⟩)
    | failed e => exact .inr (.inr ⟨e, hp⟩)
    | _ => rw [hp] at hsettled; exact hsettled.elim

/-- As long as no call has failed, the cursor is behind the instructions returned. -/
theorem offset_after {code : Bytes} {limit : Int} {n : Nat}
    (h : (after code limit n).error? = none) :
    ∃ is : List Instruction, outcomes code limit n = is.map .ok ∧
      (after code limit n).offset = (is.map Instruction.size).sum := by
  induction n with
  | zero => exact ⟨[], rfl, rfl⟩
  | succ n ih =>
    rcases (after code limit n).error?_eq_none_or with hnone | ⟨e, hfailed⟩
    · obtain ⟨is, his, hsum⟩ := ih hnone
      rcases next_cases hnone with ⟨i, hi, hoffset, _⟩ | ⟨e, _, hfailed⟩
      · refine ⟨is ++ [i], ?_, ?_⟩
        · rw [outcomes, his, hi, List.map_append]
          rfl
        · rw [after, hoffset, hsum]
          simp
      · simp [after, error?, Phase.error?, hfailed] at h
    · simp [after, next_of_failed hfailed, error?, Phase.error?, hfailed] at h

theorem after_of_failed {code : Bytes} {limit : Int} {n : Nat} {e : DecodeError}
    (h : (after code limit n).phase = .failed e) (m : Nat) :
    after code limit (n + m) = after code limit n := by
  induction m with
  | zero => rfl
  | succ m ih =>
    have hnext : (after code limit (n + m)).next.2 = after code limit (n + m) := by
      rw [next_of_failed (ih ▸ h)]
    rw [← Nat.add_assoc, after, hnext, ih]

/-- What holds after any number of calls, inside of the next call and of its result. -/
theorem calls_invariant (code : Bytes) (limit : Int) (n : Nat) :
    Guarded code limit (after code limit n) ∧
      (∀ k, Guarded code limit (step^[k] (after code limit n).resume)) ∧
      ((after code limit n).error? = none →
        loop 3 (after code limit n).resume = some (after code limit n).next) ∧
      ((after code limit n).phase = .awaitingOpcode ∨
        (∃ i, (after code limit n).phase = .done i) ∨
        ∃ e, (after code limit n).phase = .failed e) ∧
      (∀ e, (after code limit n).error? = some e ↔ (after code limit n).phase = .failed e) ∧
      (∀ i, (after code limit n).next.1 = .ok i →
        1 ≤ i.size ∧ i.size ≤ 3 ∧
          (after code limit (n + 1)).offset = (after code limit n).offset + i.size) ∧
      ((after code limit n).error? = none →
        ∃ is : List Instruction, outcomes code limit n = is.map .ok ∧
          (after code limit n).offset = (is.map Instruction.size).sum) ∧
      ∀ e, (after code limit n).next.1 = .error e →
        (∃ needed, e = .unexpectedEnd (after code limit (n + 1)).offset needed) ∧
          ∀ m, after code limit (n + 1 + m) = after code limit (n + 1) ∧
            (after code limit (n + 1 + m)).next.1 = .error e ∧
            (after code limit (n + 1 + m)).error? = some e ∧
            (after code limit (n + 1 + m)).more = false := by
  have hwithin := Within.after code limit n
  refine ⟨hwithin.guarded, fun k => (hwithin.resume.iterate_step k).guarded, loop_resume,
    settled_or_awaitingOpcode code limit n, ?_, ?_, offset_after, ?_⟩
  · intro e
    cases hp : (after code limit n).phase <;> simp [error?, Phase.error?, hp]
  · intro i hi
    exact ⟨i.size_pos, i.size_le_three, offset_of_next_ok hi⟩
  · intro e he
    have hfailed : (after code limit (n + 1)).phase = .failed e := phase_of_next_error he
    have hfits := (Within.after code limit (n + 1)).fits
    rw [hfailed] at hfits
    refine ⟨hfits, ?_⟩
    intro m
    rw [after_of_failed hfailed m, next_of_failed hfailed]
    simp [error?, Phase.error?, more, hfailed]

example : (after [0xAD, 0x34, 0x12] 2 4).error? = some (.unexpectedEnd 1 1) := by decide

end Decoder

end Disasm6502
