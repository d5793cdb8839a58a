import Disasm6502.Proofs.DecoderRun

/-!
Instruction boundaries. They are the offsets reached from the start of the code by one whole
instruction after the other, found from the opcode lengths alone. `Boundary.iff_of_cut` ties them to
the cut of the code and `boundary_take_iff` to the cut of its first bytes, and from the two it
follows which limits a program can be decoded up to and what is reported for all others.
-/

namespace Disasm6502

/-- The first `n` instructions of the code are complete and end at the given offset. -/
inductive Boundary (code : Bytes) : Nat → Nat → Prop where
  | start : Boundary code 0 0
  | next {n s : Nat} {op : UInt8} : Boundary code n s → code[s]? = some op →
      s + Opcode.length op ≤ code.length → Boundary code (n + 1) (s + Opcode.length op)

/-- The last boundary that is not behind `stop`. -/
structure LastBoundary (code : Bytes) (stop n s : Nat) : Prop where
  boundary : Boundary code n s
  le_stop : s ≤ stop
  last : ∀ n' s', Boundary code n' s' → s' ≤ stop → s' ≤ s

/-- The first offset that decoding up to a limit may not read. -/
def fence (code : Bytes) (limit : Int) : Nat := min limit.toNat code.length

/-- What is reported when the last boundary before the fence is `s`: the operand of the instruction
that starts there runs over the fence, or there is no opcode although the limit asks for more. -/
inductive Missing (code : Bytes) (limit : Int) (s : Nat) : DecodeError → Prop where
  | operand {op : UInt8} : s < fence code limit → code[s]? = some op →
      Missing code limit s (.unexpectedEnd (s + 1) (s + Opcode.length op - fence code limit))
  | opcode : s = fence code limit → code.length < limit →
      Missing code limit s (.unexpectedEnd code.length 1)

/-- The limit asks for nothing, or for whole instructions that the code has. -/
def Reaches (code : Bytes) (limit : Int) : Prop :=
  limit ≤ 0 ∨ limit ≤ code.length ∧ ∃ n, Boundary code n limit.toNat

theorem boundary_take_iff {code : Bytes} {stop n s : Nat} :
    Boundary (code.take stop) n s ↔ Boundary code n s ∧ s ≤ stop := by
  constructor
  · intro h
    induction h with
    | start => exact ⟨.start, Nat.zero_le _⟩
    | next _ hop hle ih =>
      rw [List.length_take] at hle
      rw [List.getElem?_take] at hop
      split at hop
      · exact ⟨.next ih.1 hop (by omega), by omega⟩
      · cases hop
  · rintro ⟨h, hstop⟩
    induction h with
    | start => exact .start
    | @next n s op _ hop hle ih =>
      have hpos := Opcode.length_pos op
      refine .next (ih (by omega)) ?_ ?_
      · rw [List.getElem?_take, if_pos (by omega)]
        exact hop
      · rw [List.length_take]
        omega

/-- Behind whole instructions a cut goes on with the rest of them. -/
theorem Cut.drop {code left : Bytes} {is : List Instruction} (h : Cut code is left) (n : Nat) :
    Cut (code.drop ((is.take n).flatMap Instruction.encode).length) (is.drop n) left := by
  have hsplit : code = (is.take n).flatMap Instruction.encode ++
      ((is.drop n).flatMap Instruction.encode ++ left) := by
    rw [← List.append_assoc, ← List.flatMap_append, List.take_append_drop]
    exact h.eq_append
  rw [hsplit, List.drop_left]
  exact cut_flatMap_append (fun i hi => h.wellFormed i (List.mem_of_mem_drop hi)) h.incomplete

theorem getElem?_zero_encode_append (i : Instruction) (rest : Bytes) :
    (i.encode ++ rest)[0]? = some i.opcode := rfl

/-- What stands at an offset decides between the two cases of a cut. -/
theorem Cut.cases_at {code left : Bytes} {is : List Instruction} {n s : Nat} {op : UInt8}
    (h : Cut (code.drop s) (is.drop n) left) (hop : code[s]? = some op)
    (hle : s + Opcode.length op ≤ code.length) :
    ∃ i, is[n]? = some i ∧ i.WellFormed ∧ i.opcode = op := by
  have hhead : (code.drop s)[0]? = some op := by
    rw [List.getElem?_drop, Nat.add_zero]
    exact hop
  have hn : (is.drop n)[0]? = is[n]? := by rw [List.getElem?_drop, Nat.add_zero]
  generalize hcode : code.drop s = bytes at h hhead
  generalize is.drop n = js at h hn
  cases h with
  | stop hleft =>
    have hlength : left.length = code.length - s := by rw [← hcode, List.length_drop]
    cases left with
    | nil => cases hhead
    | cons op' rest =>
      obtain rfl : op' = op := Option.some.inj hhead
      simp only [Incomplete] at hleft
      rw [List.length_cons] at hlength
      omega
  | @cons i rest _ _ hi _ =>
    refine ⟨i, hn.symm, hi, ?_⟩
    rw [getElem?_zero_encode_append] at hhead
    exact Option.some.inj hhead

theorem length_flatMap_take_succ {is : List Instruction} {n : Nat} {i : Instruction}
    (h : is[n]? = some i) :
    ((is.take (n + 1)).flatMap Instruction.encode).length =
      ((is.take n).flatMap Instruction.encode).length + i.size := by
  rw [List.take_add_one, h, List.flatMap_append, List.length_append]
  simp [i.length_encode]

/-- The code of an instruction stands behind the code of those before it. -/
theorem Cut.drop_eq_encode_append {code left : Bytes} {is : List Instruction}
    (h : Cut code is left) {n : Nat} {i : Instruction} (hi : is[n]? = some i) :
    code.drop ((is.take n).flatMap Instruction.encode).length =
      i.encode ++ ((is.drop (n + 1)).flatMap Instruction.encode ++ left) := by
  obtain ⟨hn, hget⟩ := List.getElem?_eq_some_iff.1 hi
  rw [(h.drop n).eq_append, List.drop_eq_getElem_cons hn, hget, List.flatMap_cons,
    List.append_assoc]

/-- The boundaries are where the instructions of the cut end. -/
theorem Boundary.iff_of_cut {code left : Bytes} {is : List Instruction} (hcut : Cut code is left)
    {n s : Nat} :
    Boundary code n s ↔
      n ≤ is.length ∧ s = ((is.take n).flatMap Instruction.encode).length := by
  constructor
  · intro h
    induction h with
    | start => exact ⟨Nat.zero_le _, rfl⟩
    | next _ hop hle ih =>
      obtain ⟨_, rfl⟩ := ih
      obtain ⟨i, hi, hwf, rfl⟩ := (hcut.drop _).cases_at hop hle
      rw [length_flatMap_take_succ hi, Instruction.size_of_wellFormed hwf]
      exact ⟨(List.getElem?_eq_some_iff.1 hi).1, rfl⟩
  · rintro ⟨hn, rfl⟩
    induction n with
    | zero => exact .start
    | succ n ih =>
      have hi : is[n]? = some is[n] := List.getElem?_eq_getElem hn
      have hsize := Instruction.size_of_wellFormed (hcut.wellFormed _ (List.getElem_mem hn))
      have hdrop := hcut.drop_eq_encode_append hi
      rw [length_flatMap_take_succ hi, hsize]
      refine .next (ih (by omega)) ?_ ?_
      · rw [← Nat.add_zero ((is.take n).flatMap _).length, ← List.getElem?_drop, hdrop]
        exact getElem?_zero_encode_append is[n] _
      · have hlength := congrArg List.length hdrop
        have hpos := is[n].size_pos
        rw [List.length_drop, List.length_append, Instruction.length_encode] at hlength
        omega

theorem length_flatMap_take_le (is : List Instruction) (n : Nat) :
    ((is.take n).flatMap Instruction.encode).length ≤ (is.flatMap Instruction.encode).length := by
  have hsplit : is.flatMap Instruction.encode =
      (is.take n).flatMap Instruction.encode ++ (is.drop n).flatMap Instruction.encode := by
    rw [← List.flatMap_append, List.take_append_drop]
  rw [hsplit, List.length_append]
  omega

theorem boundary_of_cut_take {code left : Bytes} {stop : Nat} {is : List Instruction}
    (hcut : Cut (code.take stop) is left) :
    Boundary code is.length (is.flatMap Instruction.encode).length ∧
      (is.flatMap Instruction.encode).length ≤ stop := by
  apply boundary_take_iff.1
  apply (Boundary.iff_of_cut hcut).2
  rw [List.take_length]
  exact ⟨Nat.le_refl _, rfl⟩

/-- Where the cut of the first bytes stops is the last boundary in them. -/
theorem lastBoundary_of_cut {code left : Bytes} {stop : Nat} {is : List Instruction}
    (hcut : Cut (code.take stop) is left) :
    LastBoundary code stop is.length (is.flatMap Instruction.encode).length := by
  obtain ⟨hboundary, hle⟩ := boundary_of_cut_take hcut
  refine ⟨hboundary, hle, ?_⟩
  intro n s hs hstop
  obtain ⟨_, rfl⟩ := (Boundary.iff_of_cut hcut).1 (boundary_take_iff.2 ⟨hs, hstop⟩)
  exact length_flatMap_take_le is n

/-- A limit is reached when the cut of the code before it leaves nothing. -/
theorem reaches_iff_of_cut {code left : Bytes} {limit : Int} {is : List Instruction}
    (hcut : Cut (code.take limit.toNat) is left) :
    Reaches code limit ↔ left = [] ∧ limit.toNat ≤ code.length := by
  have hlength := hcut.length_eq
  rw [List.length_take] at hlength
  constructor
  · rintro (hneg | ⟨hle, n, hn⟩)
    · have hzero : limit.toNat = 0 := by omega
      exact ⟨List.length_eq_zero_iff.1 (by omega), by omega⟩
    · have hcode : limit.toNat ≤ code.length := by omega
      obtain ⟨_, hend⟩ :=
        (Boundary.iff_of_cut hcut).1 (boundary_take_iff.2 ⟨hn, Nat.le_refl _⟩)
      have hmono := length_flatMap_take_le is n
      exact ⟨List.length_eq_zero_iff.1 (by omega), hcode⟩
  · rintro ⟨rfl, hle⟩
    by_cases hneg : limit ≤ 0
    · exact .inl hneg
    · have hend : (is.flatMap Instruction.encode).length = limit.toNat := by
        rw [List.length_nil] at hlength
        omega
      refine .inr ⟨by omega, is.length, ?_⟩
      rw [← hend]
      exact (boundary_of_cut_take hcut).1

theorem missing_of_cut {code left : Bytes} {limit : Int} {is : List Instruction}
    (hcut : Cut (code.take limit.toNat) is left) (hnot : ¬ Reaches code limit) :
    Missing code limit (is.flatMap Instruction.encode).length
      (.shortfall (is.flatMap Instruction.encode).length left) := by
  rw [reaches_iff_of_cut hcut] at hnot
  have hlength := hcut.length_eq
  have hincomplete := hcut.incomplete
  rw [List.length_take] at hlength
  cases left with
  | nil =>
    rw [List.length_nil] at hlength
    have hbeyond : ¬ limit.toNat ≤ code.length := fun h => hnot ⟨rfl, h⟩
    have hend : (is.flatMap Instruction.encode).length = code.length := by omega
    rw [DecodeError.shortfall, hend]
    exact .opcode (by rw [fence]; omega) (by omega)
  | cons op rest =>
    simp only [Incomplete] at hincomplete
    rw [List.length_cons] at hlength
    have hop : (code.take limit.toNat)[(is.flatMap Instruction.encode).length]? = some op := by
      rw [hcut.eq_append, List.getElem?_append_right (Nat.le_refl _), Nat.sub_self]
      rfl
    rw [List.getElem?_take, if_pos (by omega)] at hop
    have hneeded : ((Opcode.length op - (rest.length + 1) : Nat) : Int) =
        (is.flatMap Instruction.encode).length + Opcode.length op - fence code limit := by
      rw [fence]
      omega
    rw [DecodeError.shortfall, hneeded]
    exact .operand (by rw [fence]; omega) hop

namespace Program

/-- Exactly the limits that are reached are accepted. -/
theorem exists_decode_iff_reaches {code : Bytes} {limit : Int} :
    (∃ p, decode code limit = .ok p) ↔ Reaches code limit := by
  obtain ⟨is, left, hcut⟩ := exists_cut (code.take limit.toNat)
  have hdecode := decode_of_cut hcut
  rw [reaches_iff_of_cut hcut]
  constructor
  · rintro ⟨p, hp⟩
    by_cases h : left = [] ∧ limit.toNat ≤ code.length
    · exact h
    · rw [hdecode, if_neg h] at hp
      cases hp
  · intro h
    exact ⟨_, by rw [hdecode, if_pos h]⟩

/-- For every other limit the error is about the instruction at the last boundary. -/
theorem decode_of_not_reaches {code : Bytes} {limit : Int} (h : ¬ Reaches code limit) :
    ∃ (n s : Nat) (e : DecodeError), LastBoundary code (fence code limit) n s ∧
      Missing code limit s e ∧ decode code limit = .error ⟨n, s, e⟩ := by
  obtain ⟨is, left, hcut⟩ := exists_cut (code.take limit.toNat)
  have hdecode := decode_of_cut hcut
  have hlast : LastBoundary code (fence code limit) is.length
      (is.flatMap Instruction.encode).length := by
    apply lastBoundary_of_cut
    rw [fence, ← List.take_eq_take_min]
    exact hcut
  rw [if_neg (fun hend => h ((reaches_iff_of_cut hcut).2 hend))] at hdecode
  exact ⟨_, _, _, hlast, missing_of_cut hcut h, hdecode⟩

/-- Which limits are accepted, and what is reported for all others. -/
theorem decode_outcome (code : Bytes) (limit : Int) :
    ((∃ p, decode code limit = .ok p) ↔ Reaches code limit) ∧
      (¬ Reaches code limit →
        ∃ (n s : Nat) (e : DecodeError),
          LastBoundary code (fence code limit) n s ∧ Missing code limit s e ∧
            decode code limit = .error ⟨n, s, e⟩ ∧
            (⟨n, s, e⟩ : DecodeFailure).message =
              utf8 "instruction " ++ Numeral.decimal n ++ utf8 " at $" ++
                Numeral.hex 4 (0x8000 + s) ++ utf8 ": " ++ e.message) := by
  refine ⟨exists_decode_iff_reaches, ?_⟩
  intro h
  obtain ⟨n, s, e, hlast, hmissing, hdecode⟩ := decode_of_not_reaches h
  exact ⟨n, s, e, hlast, hmissing, hdecode, rfl⟩

end Program

end Disasm6502
