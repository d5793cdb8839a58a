import Disasm6502.Decoder.Error
import Disasm6502.Instruction.Operand

/-!
Decoding one operand at a freely chosen position. Position and end are 64-bit machine integers and
their sums wrap; nothing ties them to the code, so a read can fall outside of it.
-/

namespace Disasm6502

inductive OperandFault where
  | undecodable (error : DecodeError)
  /-- A read before the first or past the last byte of the code. -/
  | outOfBounds
  deriving DecidableEq, Repr

namespace Operand

/-- The `size` bytes of code from `position` on, if all of them exist. -/
def window? (code : Bytes) (position : Int) (size : Nat) : Option Bytes :=
  if position < 0 then none
  else
    let bytes := (code.drop position.toNat).take size
    if bytes.length = size then some bytes else none

/-- The operand of opcode `op` at `position`, its mode being the first of `allowed` that the opcode
encodes; `stop` is the first position that may not be read. A mode without payload reads nothing. -/
def decodeAt (op : UInt8) (allowed : ModeSet) (code : Bytes) (position stop : Int64) :
    Except OperandFault Operand :=
  match allowed.resolve op with
  | none => .error (.undecodable (.invalidEncoding op (position - 1).toInt allowed))
  | some m =>
    let past := position + Int64.ofNat m.size
    if stop < past then .error (.undecodable (.unexpectedEnd position.toInt (past - stop).toInt))
    else if m.size = 0 then .ok (ofPayload m [])
    else
      match window? code position.toInt m.size with
      | none => .error .outOfBounds
      | some bytes => .ok (ofPayload m bytes)

/-- How many bytes an attempt to decode an operand has used up: none if it has failed. -/
def consumed : Except OperandFault Operand → Nat
  | .ok o => o.size
  | .error _ => 0

end Operand

end Disasm6502
