import Disasm6502.Proofs.DecoderCalls

/-!
How much work decoding is. `Finishes` is the loop over calls of the decoder as a relation that
counts them; a loop that never ended would not satisfy it. Every call but the last one uses up a
byte before the fence, so the bytes there bound the calls (`Finishes.calls_le`), however far behind
them the limit is, and the loop ends from every decoder (`exists_finishes`).
-/

namespace Disasm6502

/-- Every instruction takes one to three bytes. -/
theorem Instruction.sum_size_bounds (is : List Instruction) :
    is.length ≤ (is.map size).sum ∧ (is.map size).sum ≤ 3 * is.length := by
  induction is with
  | nil => exact ⟨Nat.le_refl _, Nat.le_refl _⟩
  | cons i is ih =>
    have hpos := i.size_pos
    have hle := i.size_le_three
    rw [List.map_cons, List.sum_cons, List.length_cons]
    exact ⟨by omega, by omega⟩

namespace Program

/-- The loop over calls, entered with a decoder and with the instructions so far held last first,
ends with a result after a number of calls. -/
inductive Finishes :
    Decoder → List Instruction → Nat → Except DecodeFailure (List Instruction) → Prop where
  | enough {d : Decoder} {done : List Instruction} :
      d.more = false → Finishes d done 0 (.ok done.reverse)
  | failed {d e : Decoder} {done : List Instruction} {err : DecodeError} :
      d.more = true → d.next = (.error err, e) →
      Finishes d done 1 (.error ⟨done.length, d.offset, err⟩)
  | called {d e : Decoder} {done : List Instruction} {i : Instruction} {calls : Nat}
      {r : Except DecodeFailure (List Instruction)} :
      d.more = true → d.next = (.ok i, e) → Finishes e (i :: done) calls r →
      Finishes d done (calls + 1) r

namespace Finishes

variable {d : Decoder} {done : List Instruction} {calls calls' : Nat}
  {r r' : Except DecodeFailure (List Instruction)}

theorem decodeOnto_eq (h : Finishes d done calls r) : decodeOnto d done = r := by
  induction h with
  | enough hmore => exact decodeOnto_of_not_more hmore _
  | failed hmore hnext => exact decodeOnto_of_next_error hmore hnext _
  | called hmore hnext _ ih => rw [decodeOnto_of_next_ok hmore hnext, ih]

/-- A call that does not end the loop uses up one of the bytes that are left. -/
theorem calls_le (h : Finishes d done calls r) : calls ≤ d.rest.length + 1 := by
  induction h with
  | enough _ => exact Nat.zero_le _
  | failed _ _ => exact Nat.le_add_left _ _
  | called _ hnext _ ih =>
    have hshorter := Decoder.length_rest_next hnext
    omega

/-- Every call but one that fails adds an instruction. -/
theorem calls_eq (h : Finishes d done calls r) :
    match r with
    | .ok is => is.length = done.length + calls
    | .error f => f.index + 1 = done.length + calls := by
  induction h with
  | enough _ => exact List.length_reverse
  | failed _ _ => rfl
  | @called d e done i calls r _ _ _ ih =>
    cases r with
    | ok is =>
      simp only [List.length_cons] at ih ⊢
      omega
    | error f =>
      simp only [List.length_cons] at ih ⊢
      omega

/-- The loop has one course, since its result says how often the decoder was called. -/
theorem unique (h : Finishes d done calls r) (h' : Finishes d done calls' r') :
    calls' = calls ∧ r' = r := by
  obtain rfl : r' = r := by rw [← h.decodeOnto_eq, h'.decodeOnto_eq]
  have hcalls := h.calls_eq
  have hcalls' := h'.calls_eq
  refine ⟨?_, rfl⟩
  cases r' with
  | ok is =>
    simp only at hcalls hcalls'
    omega
  | error f =>
    simp only at hcalls hcalls'
    omega

end Finishes

theorem exists_finishes (d : Decoder) (done : List Instruction) :
    ∃ calls r, Finishes d done calls r := by
  -- On the bytes that are left, of which every call that does not end the loop takes some.
  induction hn : d.rest.length using Nat.strongRecOn generalizing d done with
  | ind n ih =>
    cases hmore : d.more with
    | false => exact ⟨0, _, .enough hmore⟩
    | true =>
      cases hnext : d.next with
      | mk outcome e =>
        cases outcome with
        | error err => exact ⟨1, _, .failed hmore hnext⟩
        | ok i =>
          have hshorter := Decoder.length_rest_next hnext
          obtain ⟨calls, r, h⟩ := ih e.rest.length (by omega) e (i :: done) rfl
          exact ⟨calls + 1, r, .called hmore hnext h⟩

theorem size_bounds_of_decode {code : Bytes} {limit : Int} {p : Program}
    (h : decode code limit = .ok p) :
    p.instructions.length ≤ p.size ∧ p.size ≤ 3 * p.instructions.length := by
  obtain ⟨_, hencode, hle, hsize⟩ := decode_eq_ok_iff.1 h
  obtain ⟨hlower, hupper⟩ := Instruction.sum_size_bounds p.instructions
  have hlength : (p.instructions.map Instruction.size).sum = limit.toNat := by
    rw [← Instruction.length_flatMap_encode, ← encode, hencode, List.length_take,
      Nat.min_eq_left hle]
  rw [hlength] at hlower hupper
  exact ⟨by omega, by omega⟩

/-- Decoding ends, after at most one call more than there are bytes before the fence. A call takes
at most three turns of the loop over transitions, and none if decoding has failed before. A program
has at most as many instructions as bytes and at least a third of that. -/
theorem decode_work_bounded (code : Bytes) (limit : Int) :
    (∃ (calls : Nat) (r : Except DecodeFailure (List Instruction)),
      Finishes (.start code limit) [] calls r ∧
        (∀ calls' r', Finishes (.start code limit) [] calls' r' → calls' = calls ∧ r' = r) ∧
        (calls : Int) ≤ min (max limit 0) code.length + 1 ∧
        (match r with
          | .ok is => calls = is.length ∧ decode code limit = .ok ⟨is, limit.toNat⟩
          | .error f => calls = f.index + 1 ∧ decode code limit = .error f)) ∧
      (∀ d : Decoder,
        (d.error? = none → Decoder.loop 3 d.resume = some d.next) ∧
          ∀ e, d.error? = some e → d.next = (.error e, d)) ∧
      ∀ p, decode code limit = .ok p →
        p.instructions.length ≤ p.size ∧ p.size ≤ 3 * p.instructions.length := by
  refine ⟨?_, ?_, fun p => size_bounds_of_decode⟩
  · obtain ⟨calls, r, h⟩ := exists_finishes (.start code limit) []
    have hle : calls ≤ min limit.toNat code.length + 1 := by
      rw [← List.length_take]
      exact h.calls_le
    have hcalls := h.calls_eq
    have hdecode := h.decodeOnto_eq
    refine ⟨calls, r, h, fun calls' r' => h.unique, by omega, ?_⟩
    cases r with
    | ok is =>
      rw [decode, hdecode]
      simp only [List.length_nil, Nat.zero_add] at hcalls
      exact ⟨hcalls.symm, rfl⟩
    | error f =>
      rw [decode, hdecode]
      simp only [List.length_nil, Nat.zero_add] at hcalls
      exact ⟨hcalls.symm, rfl⟩
  · intro d
    refine ⟨Decoder.loop_resume, ?_⟩
    intro e he
    rcases d.error?_eq_none_or with hnone | ⟨err, hfailed⟩
    · rw [hnone] at he
      cases he
    · rw [Decoder.next_of_failed hfailed]
      simp only [Decoder.error?, hfailed, Phase.error?] at he
      rw [Option.some.inj he]

-- Three turns are needed for an instruction with an operand: opcode, operand, return.
example : Decoder.loop 2 (.start [0xA9, 0x42] 2) = none := by decide

end Program

end Disasm6502
