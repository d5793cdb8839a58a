import Disasm6502.Proofs.InstructionCode

/-!
Streams of instructions. `Cut code is left` says that the code consists of the well-formed
instructions `is` and then of bytes `left` at which the next instruction is incomplete. Every code
is cut in exactly one way (`exists_cut`, `Cut.unique`); nothing here refers to how a decoder finds
the cut.
-/

namespace Disasm6502

open Instruction (encode)

/-- The bytes end before the instruction at their start does. -/
def Incomplete : Bytes → Prop
  | [] => True
  | op :: rest => rest.length + 1 < Opcode.length op

inductive Cut : Bytes → List Instruction → Bytes → Prop where
  | stop {left : Bytes} : Incomplete left → Cut left [] left
  | cons {i : Instruction} {rest left : Bytes} {is : List Instruction} :
      i.WellFormed → Cut rest is left → Cut (i.encode ++ rest) (i :: is) left

theorem incomplete_nil : Incomplete [] := trivial

/-- Nothing that starts with a whole instruction is incomplete. -/
theorem not_incomplete_encode_append {i : Instruction} (h : i.WellFormed) (rest : Bytes) :
    ¬ Incomplete (i.encode ++ rest) := by
  obtain ⟨op, payload, hlen, rfl⟩ := Instruction.wellFormed_iff_read.1 h
  rw [Instruction.encode_read hlen, List.cons_append]
  simp only [Incomplete, List.length_append]
  omega

/-- Bytes that are not incomplete start with an instruction. -/
theorem exists_encode_append {code : Bytes} (h : ¬ Incomplete code) :
    ∃ (i : Instruction) (rest : Bytes), i.WellFormed ∧ code = i.encode ++ rest := by
  cases code with
  | nil => exact absurd incomplete_nil h
  | cons op tail =>
    simp only [Incomplete] at h
    have hpos := Opcode.length_pos op
    have hlen : (tail.take (Opcode.length op - 1)).length + 1 = Opcode.length op := by
      rw [List.length_take]
      omega
    refine ⟨.read op (tail.take (Opcode.length op - 1)), tail.drop (Opcode.length op - 1),
      Instruction.wellFormed_read hlen, ?_⟩
    rw [Instruction.encode_read hlen, List.cons_append, List.take_append_drop]

theorem cut_flatMap_append {is : List Instruction} {left : Bytes}
    (hwf : ∀ i ∈ is, i.WellFormed) (hleft : Incomplete left) :
    Cut (is.flatMap encode ++ left) is left := by
  induction is with
  | nil => exact .stop hleft
  | cons i is ih =>
    rw [List.flatMap_cons, List.append_assoc]
    exact .cons (hwf i List.mem_cons_self) (ih fun j hj => hwf j (List.mem_cons_of_mem i hj))

namespace Cut

variable {code left left' : Bytes} {is js : List Instruction}

theorem eq_append (h : Cut code is left) : code = is.flatMap encode ++ left := by
  induction h with
  | stop _ => rfl
  | cons _ _ ih => rw [ih, List.flatMap_cons, List.append_assoc]

theorem wellFormed (h : Cut code is left) : ∀ i ∈ is, i.WellFormed := by
  induction h with
  | stop _ => intro i hi; cases hi
  | cons hi _ ih =>
    intro j hj
    rcases List.mem_cons.1 hj with rfl | hj
    · exact hi
    · exact ih j hj

theorem incomplete (h : Cut code is left) : Incomplete left := by
  induction h with
  | stop h => exact h
  | cons _ _ ih => exact ih

theorem length_eq (h : Cut code is left) :
    code.length = (is.flatMap encode).length + left.length := by
  rw [h.eq_append, List.length_append]

/-- There is only one way to cut: the first byte of an instruction fixes where it ends. -/
theorem unique (h : Cut code is left) (h' : Cut code js left') : is = js ∧ left = left' := by
  induction h generalizing js with
  | stop hleft =>
    cases h' with
    | stop _ => exact ⟨rfl, rfl⟩
    | cons hj _ => exact absurd hleft (not_incomplete_encode_append hj _)
  | @cons i rest _ _ hi _ ih =>
    generalize hcode : i.encode ++ rest = code at h'
    cases h' with
    | stop hleft' => exact absurd (hcode ▸ hleft') (not_incomplete_encode_append hi rest)
    | cons hj hrest' =>
      obtain ⟨rfl, rfl⟩ := Instruction.encode_append_inj hi hj hcode
      obtain ⟨rfl, rfl⟩ := ih hrest'
      exact ⟨rfl, rfl⟩

end Cut

theorem exists_cut (code : Bytes) : ∃ is left, Cut code is left := by
  -- On the length of the code, of which every instruction takes at least one byte.
  induction hn : code.length using Nat.strongRecOn generalizing code with
  | ind n ih =>
    by_cases h : Incomplete code
    · exact ⟨[], code, .stop h⟩
    · obtain ⟨i, rest, hi, rfl⟩ := exists_encode_append h
      have hshort : rest.length < n := by
        have := i.size_pos
        rw [List.length_append, i.length_encode] at hn
        omega
      obtain ⟨is, left, hcut⟩ := ih rest.length hshort rest rfl
      exact ⟨i :: is, left, .cons hi hcut⟩

end Disasm6502
