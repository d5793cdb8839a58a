import Disasm6502.Instruction.Operand
import Disasm6502.Opcode.Matrix

/-!
Instructions: an opcode byte, the mnemonic it is shown under and the operand, if there is one.
Hand-made instructions may combine these in any way; those that agree with the opcode matrix are
`WellFormed`, and `Instruction.encode` gives the bytes an instruction stands for.
-/

namespace Disasm6502

structure Instruction where
  opcode : UInt8
  mnemonic : Option Mnemonic
  operand : Option Operand
  deriving DecidableEq, Repr

namespace Instruction

/-- The number of bytes of the operand. -/
def operandSize (i : Instruction) : Nat :=
  match i.operand with
  | none => 0
  | some o => o.size

/-- The encoded length, opcode included. -/
def size (i : Instruction) : Nat := 1 + i.operandSize

def encode (i : Instruction) : Bytes :=
  i.opcode :: match i.operand with
    | none => []
    | some o => o.payload

/-- The mnemonic and, three spaces apart, the operand. -/
def text (i : Instruction) : Bytes :=
  match i.operand with
  | none => utf8 (mnemonicName i.mnemonic)
  | some o => utf8 (mnemonicName i.mnemonic) ++ utf8 "   " ++ o.text

def undocumented (i : Instruction) : Bool := i.mnemonic.any Mnemonic.undocumented

/-- The opcode's instruction with the given operand. -/
def ofOpcode (op : UInt8) (operand : Option Operand) : Instruction :=
  ⟨op, some (Opcode.mnemonic op), operand⟩

/-- The instruction is one the opcode matrix describes, with a payload that fits its mode. -/
def WellFormed (i : Instruction) : Prop :=
  i.mnemonic = some (Opcode.mnemonic i.opcode) ∧
    match i.operand with
    | none => (Opcode.modes i.opcode).isEmpty = true
    | some o => (Opcode.modes i.opcode).isEmpty = false ∧
        o.mode = (Opcode.modes i.opcode).resolve i.opcode ∧ o.mode.isSome = true ∧
        o.value.toNat < Nat.pow 256 o.size

theorem size_pos (i : Instruction) : 0 < i.size := by simp only [size]; omega

theorem length_encode (i : Instruction) : i.encode.length = i.size := by
  cases h : i.operand with
  | none => simp [encode, size, operandSize, h]
  | some o => simp [encode, size, operandSize, h, o.length_payload]; omega

end Instruction

end Disasm6502
