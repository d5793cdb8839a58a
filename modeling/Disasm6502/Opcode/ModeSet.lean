import Disasm6502.Opcode.Mode

/-!
Sets of addressing modes as 16 bits, bit `t` standing for tag `t`. The three bits above the last
mode can be set and then make the set nonempty, yet no mode is a member through them.
-/

namespace Disasm6502

structure ModeSet where
  bits : UInt16
  deriving DecidableEq, Repr

namespace ModeSet

/-- The bit of a tag; tags of 16 and above have none. -/
def bit (t : UInt8) : UInt16 := if t < 16 then 1 <<< t.toUInt16 else 0

def ofTags (tags : List UInt8) : ModeSet := ⟨tags.foldl (fun bits t => bits ||| bit t) 0⟩

def ofModes (modes : List Mode) : ModeSet := ofTags (modes.map Mode.tag)

def contains (s : ModeSet) (m : Mode) : Bool := s.bits &&& bit m.tag != 0

/-- Membership by tag; a tag without a mode is no member. -/
def containsTag (s : ModeSet) (t : UInt8) : Bool := (Mode.ofTag? t).any s.contains

/-- An instruction with the empty set takes no operand at all. -/
def isEmpty (s : ModeSet) : Bool := s.bits == 0

/-- The members in the order in which they are tried. -/
def modes (s : ModeSet) : List Mode := Mode.all.filter s.contains

/-- The first member that the opcode encodes. -/
def resolve (s : ModeSet) (op : UInt8) : Option Mode :=
  Mode.all.find? fun m => s.contains m && m.matchesOpcode op

/-! ## Families of instructions -/

def noOperand : ModeSet := ⟨0⟩

def arithmetic : ModeSet :=
  ofModes [.absolute, .absoluteX, .absoluteY, .immediate, .indirectX, .indirectY, .zeroPage,
    .zeroPageX]

def store : ModeSet :=
  ofModes [.absolute, .absoluteX, .absoluteY, .indirectX, .indirectY, .zeroPage, .zeroPageX]

def shift : ModeSet := ofModes [.accumulator, .absolute, .absoluteX, .zeroPage, .zeroPageX]

def branch : ModeSet := ofModes [.relative]

def bitTest : ModeSet := ofModes [.absolute, .zeroPage]

def compareIndex : ModeSet := ofModes [.absolute, .immediate, .zeroPage]

def increment : ModeSet := ofModes [.absolute, .absoluteX, .zeroPage, .zeroPageX]

def jump : ModeSet := ofModes [.absolute, .indirect]

def absoluteOnly : ModeSet := ofModes [.absolute]

def loadX : ModeSet := ofModes [.absolute, .absoluteY, .immediate, .zeroPage, .zeroPageY]

def loadY : ModeSet := ofModes [.absolute, .absoluteX, .immediate, .zeroPage, .zeroPageX]

def immediateOnly : ModeSet := ofModes [.immediate]

def absoluteXOnly : ModeSet := ofModes [.absoluteX]

def absoluteYOnly : ModeSet := ofModes [.absoluteY]

def storeAX : ModeSet := ofModes [.absolute, .indirectX, .zeroPage, .zeroPageY]

def storeX : ModeSet := ofModes [.absolute, .zeroPage, .zeroPageY]

def storeY : ModeSet := ofModes [.absolute, .zeroPage, .zeroPageX]

def storeHigh : ModeSet := ofModes [.absoluteY, .indirectY]

def loadAX : ModeSet :=
  ofModes [.absolute, .absoluteY, .indirectX, .indirectY, .zeroPage, .zeroPageY]

theorem contains_of_resolve {s : ModeSet} {op : UInt8} {m : Mode} (h : s.resolve op = some m) :
    s.contains m = true := by
  have := List.find?_some h
  simp only [Bool.and_eq_true] at this
  exact this.1

theorem matchesOpcode_of_resolve {s : ModeSet} {op : UInt8} {m : Mode}
    (h : s.resolve op = some m) : m.matchesOpcode op = true := by
  have := List.find?_some h
  simp only [Bool.and_eq_true] at this
  exact this.2

end ModeSet

end Disasm6502
