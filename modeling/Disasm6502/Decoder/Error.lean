import Disasm6502.Opcode.Matrix
import Disasm6502.Text.Numeral

/-!
Why an instruction cannot be decoded. Positions are offsets into the code and are shown in
hexadecimal, four places wide with the sign counted.
-/

namespace Disasm6502

inductive DecodeError where
  /-- The opcode encodes none of the modes it may take. -/
  | invalidEncoding (opcode : UInt8) (position : Int) (allowed : ModeSet)
  /-- The instruction runs past the end of the data. -/
  | unexpectedEnd (position needed : Int)
  deriving DecidableEq, Repr

namespace DecodeError

/-- Names in brackets, one space apart. -/
def nameList (names : List String) : Bytes :=
  utf8 "[" ++ (utf8 " ").intercalate (names.map utf8) ++ utf8 "]"

def message : DecodeError → Bytes
  | invalidEncoding op position allowed =>
    utf8 "invalid encoding: opcode $" ++ Numeral.hex 2 op.toNat ++ utf8 " (" ++
      utf8 (Opcode.mnemonic op).name ++ utf8 ") at offset $" ++ Numeral.signedHex 4 position ++
      utf8 " matches none of " ++ nameList (allowed.modes.map Mode.name)
  | unexpectedEnd position needed =>
    utf8 "unexpected end of stream at offset $" ++ Numeral.signedHex 4 position ++ utf8 ": " ++
      Numeral.integer needed ++ utf8 " more byte(s) needed"

/-- The data ended too early, as opposed to an opcode that fits no mode. -/
def isUnexpectedEnd : DecodeError → Bool
  | invalidEncoding .. => false
  | unexpectedEnd .. => true

end DecodeError

end Disasm6502
