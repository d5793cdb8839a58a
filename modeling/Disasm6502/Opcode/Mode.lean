/-!
Addressing modes: the shapes an operand can have. The order of `Mode.all` is the order in which
modes are tried when an opcode is resolved, and a mode's position in it is its tag. Tags without a
mode occur in hand-made operands and are `none` throughout.
-/

namespace Disasm6502

inductive Mode where
  | accumulator
  | absolute
  | absoluteX
  | absoluteY
  | immediate
  | implied
  | indirect
  | indirectX
  | indirectY
  | relative
  | zeroPage
  | zeroPageX
  | zeroPageY
  deriving DecidableEq, Repr

/-- An inclusive range of opcode bytes. -/
structure OpcodeRange where
  first : UInt8
  last : UInt8
  deriving DecidableEq, Repr

def OpcodeRange.contains (r : OpcodeRange) (op : UInt8) : Bool := r.first ≤ op && op ≤ r.last

namespace Mode

def all : List Mode :=
  [accumulator, absolute, absoluteX, absoluteY, immediate, implied, indirect, indirectX, indirectY,
   relative, zeroPage, zeroPageX, zeroPageY]

def tag : Mode → UInt8
  | accumulator => 0
  | absolute => 1
  | absoluteX => 2
  | absoluteY => 3
  | immediate => 4
  | implied => 5
  | indirect => 6
  | indirectX => 7
  | indirectY => 8
  | relative => 9
  | zeroPage => 10
  | zeroPageX => 11
  | zeroPageY => 12

def ofTag? (t : UInt8) : Option Mode := all[t.toNat]?

def name : Mode → String
  | accumulator => "Accumulator"
  | absolute => "Absolute"
  | absoluteX => "AbsoluteX"
  | absoluteY => "AbsoluteY"
  | immediate => "Immediate"
  | implied => "Implied"
  | indirect => "Indirect"
  | indirectX => "IndirectX"
  | indirectY => "IndirectY"
  | relative => "Relative"
  | zeroPage => "ZeroPage"
  | zeroPageX => "ZeroPageX"
  | zeroPageY => "ZeroPageY"

/-- The number of operand bytes that follow the opcode. -/
def size : Mode → Nat
  | accumulator | implied => 0
  | absolute | absoluteX | absoluteY | indirect => 2
  | immediate | indirectX | indirectY | relative | zeroPage | zeroPageX | zeroPageY => 1

/-- Opcode 6C takes an indirect operand, so its row starts one late. -/
def absoluteRanges : List OpcodeRange :=
  [⟨0x0C, 0x0F⟩, ⟨0x2C, 0x2F⟩, ⟨0x4C, 0x4F⟩, ⟨0x6D, 0x6F⟩,
   ⟨0x8C, 0x8F⟩, ⟨0xAC, 0xAF⟩, ⟨0xCC, 0xCF⟩, ⟨0xEC, 0xEF⟩]

def absoluteXRanges : List OpcodeRange :=
  [⟨0x1C, 0x1F⟩, ⟨0x3C, 0x3F⟩, ⟨0x5C, 0x5F⟩, ⟨0x7D, 0x7F⟩,
   ⟨0x9C, 0x9D⟩, ⟨0xBC, 0xBD⟩, ⟨0xDC, 0xDF⟩, ⟨0xFC, 0xFF⟩]

def zeroPageXRanges : List OpcodeRange :=
  [⟨0x14, 0x17⟩, ⟨0x34, 0x37⟩, ⟨0x54, 0x57⟩, ⟨0x74, 0x77⟩,
   ⟨0x94, 0x95⟩, ⟨0xB4, 0xB5⟩, ⟨0xD4, 0xD7⟩, ⟨0xF4, 0xF7⟩]

/-- Does the opcode byte encode this mode? The low five bits select a column of the opcode matrix,
which mostly decides the mode; the range lists cover the columns that split. -/
def matchesOpcode (op : UInt8) : Mode → Bool
  | accumulator => op == 0x0A || op == 0x2A || op == 0x4A || op == 0x6A
  | absolute => op == 0x20 || absoluteRanges.any (·.contains op)
  | absoluteX => absoluteXRanges.any (·.contains op)
  | absoluteY => op &&& 0x1D == 0x19 || op &&& 0xDE == 0x9E
  | immediate => op &&& 0x1D == 0x09 || op &&& 0x9D == 0x80
  | implied =>
    [0x08, 0x0A, 0x12, 0x18].contains (op &&& 0x1F) || op &&& 0x9F == 0x02 ||
      (op &&& 0x9F == 0x00 && op != 0x20)
  | indirect => op == 0x6C
  | indirectX => op &&& 0x1D == 0x01
  | indirectY => op &&& 0x1D == 0x11
  | relative => op &&& 0x1F == 0x10
  | zeroPage => op &&& 0x1C == 0x04
  | zeroPageX => zeroPageXRanges.any (·.contains op)
  | zeroPageY => op == 0x96 || op == 0x97 || op == 0xB6 || op == 0xB7

theorem mem_all (m : Mode) : m ∈ all := by cases m <;> decide

@[simp] theorem ofTag?_tag (m : Mode) : ofTag? m.tag = some m := by cases m <;> rfl

theorem size_le_two (m : Mode) : m.size ≤ 2 := by cases m <;> decide

end Mode

/-- The name of a tag's mode. -/
def modeName : Option Mode → String
  | some m => m.name
  | none => "Invalid"

/-- The operand size of a tag's mode. -/
def modeSize : Option Mode → Nat
  | some m => m.size
  | none => 0

end Disasm6502
