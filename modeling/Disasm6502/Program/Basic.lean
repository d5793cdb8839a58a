import Disasm6502.Decoder.Basic
import Disasm6502.Log.Message

/-!
Programs: the instructions decoded from a stretch of code, in byte order, with the declared length
of the stretch. Decoding is all or nothing; `DecodeFailure` says how many instructions were complete
and where the next one starts.
-/

namespace Disasm6502

/-- The address at which the code is mapped. -/
def baseAddress : Nat := 0x8000

structure Program where
  instructions : List Instruction
  /-- The declared byte length. -/
  size : Int
  deriving DecidableEq, Repr

structure DecodeFailure where
  /-- The number of instructions before the one that failed. -/
  index : Nat
  /-- The offset at which it starts. -/
  offset : Nat
  cause : DecodeError
  deriving DecidableEq, Repr

def DecodeFailure.message (f : DecodeFailure) : Bytes :=
  utf8 "instruction " ++ Numeral.decimal f.index ++ utf8 " at $" ++
    Numeral.hex 4 (baseAddress + f.offset) ++ utf8 ": " ++ f.cause.message

namespace Program

/-- Decode while there is more, with the instructions so far held last first. -/
def decodeOnto (d : Decoder) (done : List Instruction) : Except DecodeFailure (List Instruction) :=
  if d.more then
    match _h : d.next with
    | (.error e, _) => .error ⟨done.length, d.offset, e⟩
    | (.ok i, d') => decodeOnto d' (i :: done)
  else .ok done.reverse
termination_by d.rest.length
decreasing_by exact Decoder.length_rest_next _h

/-- Decode code from its start until `limit` bytes are consumed. The last instruction has to end
exactly there. -/
def decode (code : Bytes) (limit : Int) : Except DecodeFailure Program :=
  match decodeOnto (.start code limit) [] with
  | .error f => .error f
  | .ok instructions => .ok ⟨instructions, limit.toNat⟩

/-- The bytes the instructions stand for. -/
def encode (p : Program) : Bytes := p.instructions.flatMap Instruction.encode

def undocumentedCount (p : Program) : Nat := p.instructions.countP Instruction.undocumented

/-- What is logged about a decoded program. -/
def summary (p : Program) : Message where
  tag := utf8 "disassembler"
  detail := utf8 "decoded " ++ Numeral.decimal p.instructions.length ++ utf8 " instructions (" ++
    Numeral.decimal p.undocumentedCount ++ utf8 " undocumented) from " ++ Numeral.integer p.size ++
    utf8 " bytes"

end Program

end Disasm6502
