import Disasm6502.Opcode.Mode
import Disasm6502.Text.Numeral

/-!
Operands: an addressing mode with its payload. An 8-bit payload is the low byte of the value. The
payload is stored low byte first, and `Operand.ofPayload` reads what `Operand.payload` writes.
-/

namespace Disasm6502

structure Operand where
  mode : Option Mode
  value : UInt16
  deriving DecidableEq, Repr

namespace Operand

/-- The number of bytes the operand takes after the opcode. -/
def size (o : Operand) : Nat := modeSize o.mode

/-- The payload bytes of a value under a mode. -/
def payloadOf (size : Nat) (value : UInt16) : Bytes := [lowByte value, highByte value].take size

/-- The bytes the operand is stored in. -/
def payload (o : Operand) : Bytes := payloadOf o.size o.value

/-- The value stored in a payload of at most two bytes. -/
def valueOf : Bytes → UInt16
  | [] => 0
  | [low] => low.toUInt16
  | low :: high :: _ => word low high

def ofPayload (m : Mode) (bytes : Bytes) : Operand := ⟨some m, valueOf bytes⟩

def hexByte (value : UInt16) : Bytes := Numeral.hex 2 (lowByte value).toNat

def hexWord (value : UInt16) : Bytes := Numeral.hex 4 value.toNat

/-- The operand in assembler notation; implied operands and unknown modes have no text. -/
def text (o : Operand) : Bytes :=
  match o.mode with
  | some .accumulator => utf8 "A"
  | some .absolute => utf8 "$" ++ hexWord o.value
  | some .absoluteX => utf8 "$" ++ hexWord o.value ++ utf8 ",X"
  | some .absoluteY => utf8 "$" ++ hexWord o.value ++ utf8 ",Y"
  | some .immediate => utf8 "#$" ++ hexByte o.value
  | some .indirect => utf8 "($" ++ hexWord o.value ++ utf8 ")"
  | some .indirectX => utf8 "($" ++ hexByte o.value ++ utf8 ",X)"
  | some .indirectY => utf8 "($" ++ hexByte o.value ++ utf8 "),Y"
  | some .relative | some .zeroPage => utf8 "$" ++ hexByte o.value
  | some .zeroPageX => utf8 "$" ++ hexByte o.value ++ utf8 ",X"
  | some .zeroPageY => utf8 "$" ++ hexByte o.value ++ utf8 ",Y"
  | some .implied | none => []

theorem size_le_two (o : Operand) : o.size ≤ 2 := by
  cases h : o.mode with
  | none => simp [size, modeSize, h]
  | some m => simpa [size, modeSize, h] using m.size_le_two

theorem length_payload (o : Operand) : o.payload.length = o.size := by
  have := o.size_le_two
  simp only [payload, payloadOf, List.length_take, List.length_cons, List.length_nil]
  omega

end Operand

end Disasm6502
