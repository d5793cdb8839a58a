import Disasm6502.Proofs.InstructionCode

/-!
Opcode aliases: different opcode bytes with the same mnemonic and the same addressing mode. They
form four groups, and `Opcode.same_shape_iff` says that there are no others.
-/

namespace Disasm6502.Opcode

/-- The opcodes of a mnemonic. -/
def opcodesOf (m : Mnemonic) : List UInt8 := all.filter fun op => mnemonic op = m

/-- The groups of opcodes that take an operand and stand for the same instruction. -/
def operandAliasGroups : List (List UInt8) := [[0x0B, 0x2B], [0xE9, 0xEB]]

/-- The groups of opcodes that stand for the same instruction. -/
def aliasGroups : List (List UInt8) := opcodesOf .nop :: opcodesOf .stp :: operandAliasGroups

def Alias (x y : UInt8) : Prop := ∃ group ∈ aliasGroups, x ∈ group ∧ y ∈ group

theorem mem_opcodesOf {op : UInt8} {m : Mnemonic} : op ∈ opcodesOf m ↔ mnemonic op = m := by
  simp [opcodesOf, mem_all]

theorem mode?_eq_none_of_mnemonic {op : UInt8} {m : Mnemonic} (h : mnemonic op = m)
    (hm : m.modes.isEmpty = true) : mode? op = none := by
  apply mode?_of_isEmpty
  rw [modes, h]
  exact hm

/-- Outside of the first two groups only the last two have more than one opcode for a mode. -/
theorem eq_or_operandAlias {m : Mnemonic} (hm : m ∉ [Mnemonic.nop, Mnemonic.stp]) {x y : UInt8}
    (hx : x ∈ opcodesOf m) (hy : y ∈ opcodesOf m) (hmode : mode? x = mode? y) :
    x = y ∨ ∃ group ∈ operandAliasGroups, x ∈ group ∧ y ∈ group := by
  have table : (Mnemonic.all.all fun m => [Mnemonic.nop, Mnemonic.stp].contains m ||
      (opcodesOf m).all fun x => (opcodesOf m).all fun y => x == y || mode? x != mode? y ||
        operandAliasGroups.any fun group => group.contains x && group.contains y) = true := by
    decide +kernel
  simp only [List.all_eq_true, List.any_eq_true, Bool.or_eq_true, Bool.and_eq_true,
    List.contains_iff_mem, beq_iff_eq, bne_iff_ne] at table
  have hpair := (table m m.mem_all).resolve_left hm x hx y hy
  rcases hpair with (h | h) | h
  · exact .inl h
  · exact absurd hmode h
  · exact .inr h

theorem same_shape_of_alias {x y : UInt8} (h : Alias x y) :
    mnemonic x = mnemonic y ∧ mode? x = mode? y := by
  have pairs {a b : UInt8} (hab : mnemonic a = mnemonic b ∧ mode? a = mode? b) (hx : x ∈ [a, b])
      (hy : y ∈ [a, b]) : mnemonic x = mnemonic y ∧ mode? x = mode? y := by
    simp only [List.mem_cons, List.not_mem_nil, or_false] at hx hy
    rcases hx with rfl | rfl <;> rcases hy with rfl | rfl
    · exact ⟨rfl, rfl⟩
    · exact hab
    · exact ⟨hab.1.symm, hab.2.symm⟩
    · exact ⟨rfl, rfl⟩
  have no_operand {m : Mnemonic} (hm : m.modes.isEmpty = true) (hx : x ∈ opcodesOf m)
      (hy : y ∈ opcodesOf m) : mnemonic x = mnemonic y ∧ mode? x = mode? y := by
    rw [mem_opcodesOf] at hx hy
    rw [mode?_eq_none_of_mnemonic hx hm, mode?_eq_none_of_mnemonic hy hm, hx, hy]
    exact ⟨rfl, rfl⟩
  obtain ⟨group, hgroup, hx, hy⟩ := h
  simp only [aliasGroups, operandAliasGroups, List.mem_cons, List.not_mem_nil, or_false] at hgroup
  rcases hgroup with rfl | rfl | rfl | rfl
  · exact no_operand rfl hx hy
  · exact no_operand rfl hx hy
  · exact pairs ⟨by decide, by decide⟩ hx hy
  · exact pairs ⟨by decide, by decide⟩ hx hy

/-- Two opcodes agree in mnemonic and mode exactly when they are aliases or the same. -/
theorem same_shape_iff {x y : UInt8} :
    mnemonic x = mnemonic y ∧ mode? x = mode? y ↔ x = y ∨ Alias x y := by
  constructor
  · rintro ⟨hm, hmode⟩
    have hx : x ∈ opcodesOf (mnemonic y) := mem_opcodesOf.2 hm
    have hy : y ∈ opcodesOf (mnemonic y) := mem_opcodesOf.2 rfl
    by_cases hgroup : mnemonic y ∈ [Mnemonic.nop, Mnemonic.stp]
    · refine .inr ⟨opcodesOf (mnemonic y), ?_, hx, hy⟩
      simp only [List.mem_cons, List.not_mem_nil, or_false] at hgroup
      rcases hgroup with h | h
      · simp [aliasGroups, h]
      · simp [aliasGroups, h]
    · rcases eq_or_operandAlias hgroup hx hy hmode with h | ⟨group, hmem, h⟩
      · exact .inl h
      · exact .inr ⟨group, List.mem_cons_of_mem _ (List.mem_cons_of_mem _ hmem), h⟩
  · rintro (rfl | h)
    · exact ⟨rfl, rfl⟩
    · exact same_shape_of_alias h

end Disasm6502.Opcode
