import Disasm6502.Opcode.ModeSet

/-!
Instruction names. The first 56 are the documented instruction set; the rest are the undocumented
ones, of which `stp` jams the processor and stands for every unassigned opcode. A mnemonic's
position in `Mnemonic.all` is its number.
-/

namespace Disasm6502

inductive Mnemonic where
  | adc | and | asl | bcc | bcs | beq | bit | bmi | bne | bpl | brk | bvc | bvs | clc | cld | cli
  | clv | cmp | cpx | cpy | dec | dex | dey | eor | inc | inx | iny | jmp | jsr | lda | ldx | ldy
  | lsr | nop | ora | pha | php | pla | plp | rol | ror | rti | rts | sbc | sec | sed | sei | sta
  | stx | sty | tax | tay | tsx | txa | txs | tya | ahx | alr | anc | arr | axs | dcp | isc | las
  | lax | lxa | rla | rra | sax | shx | shy | slo | sre | tas | xaa | stp
  deriving DecidableEq, Repr

namespace Mnemonic

def all : List Mnemonic :=
  [adc, and, asl, bcc, bcs, beq, bit, bmi, bne, bpl, brk, bvc, bvs, clc, cld, cli, clv, cmp, cpx,
   cpy, dec, dex, dey, eor, inc, inx, iny, jmp, jsr, lda, ldx, ldy, lsr, nop, ora, pha, php, pla,
   plp, rol, ror, rti, rts, sbc, sec, sed, sei, sta, stx, sty, tax, tay, tsx, txa, txs, tya, ahx,
   alr, anc, arr, axs, dcp, isc, las, lax, lxa, rla, rra, sax, shx, shy, slo, sre, tas, xaa, stp]

def number (m : Mnemonic) : Nat := all.idxOf m

def ofNumber? (n : Nat) : Option Mnemonic := all[n]?

def name : Mnemonic → String
  | adc => "ADC" | and => "AND" | asl => "ASL" | bcc => "BCC" | bcs => "BCS" | beq => "BEQ"
  | bit => "BIT" | bmi => "BMI" | bne => "BNE" | bpl => "BPL" | brk => "BRK" | bvc => "BVC"
  | bvs => "BVS" | clc => "CLC" | cld => "CLD" | cli => "CLI" | clv => "CLV" | cmp => "CMP"
  | cpx => "CPX" | cpy => "CPY" | dec => "DEC" | dex => "DEX" | dey => "DEY" | eor => "EOR"
  | inc => "INC" | inx => "INX" | iny => "INY" | jmp => "JMP" | jsr => "JSR" | lda => "LDA"
  | ldx => "LDX" | ldy => "LDY" | lsr => "LSR" | nop => "NOP" | ora => "ORA" | pha => "PHA"
  | php => "PHP" | pla => "PLA" | plp => "PLP" | rol => "ROL" | ror => "ROR" | rti => "RTI"
  | rts => "RTS" | sbc => "SBC" | sec => "SEC" | sed => "SED" | sei => "SEI" | sta => "STA"
  | stx => "STX" | sty => "STY" | tax => "TAX" | tay => "TAY" | tsx => "TSX" | txa => "TXA"
  | txs => "TXS" | tya => "TYA" | ahx => "AHX" | alr => "ALR" | anc => "ANC" | arr => "ARR"
  | axs => "AXS" | dcp => "DCP" | isc => "ISC" | las => "LAS" | lax => "LAX" | lxa => "LXA"
  | rla => "RLA" | rra => "RRA" | sax => "SAX" | shx => "SHX" | shy => "SHY" | slo => "SLO"
  | sre => "SRE" | tas => "TAS" | xaa => "XAA" | stp => "STP"

/-- The addressing modes the instruction accepts. -/
def modes : Mnemonic → ModeSet
  | brk | clc | cld | cli | clv | dex | dey | inx | iny | nop | pha | php | pla | plp | rti | rts
  | sec | sed | sei | tax | tay | tsx | txa | txs | tya | stp => .noOperand
  | adc | and | cmp | eor | lda | ora | sbc => .arithmetic
  | sta | dcp | isc | rla | rra | slo | sre => .store
  | asl | lsr | rol | ror => .shift
  | bcc | bcs | beq | bmi | bne | bpl | bvc | bvs => .branch
  | bit => .bitTest
  | cpx | cpy => .compareIndex
  | dec | inc => .increment
  | jmp => .jump
  | jsr => .absoluteOnly
  | ldx => .loadX
  | ldy => .loadY
  | alr | anc | arr | axs | lxa | xaa => .immediateOnly
  | shy => .absoluteXOnly
  | las | shx | tas => .absoluteYOnly
  | sax => .storeAX
  | stx => .storeX
  | sty => .storeY
  | ahx => .storeHigh
  | lax => .loadAX

/-- Is the instruction outside the official instruction set? -/
def undocumented : Mnemonic → Bool
  | ahx | alr | anc | arr | axs | dcp | isc | las | lax | lxa | rla | rra | sax | shx | shy | slo
  | sre | tas | xaa | stp => true
  | _ => false

theorem mem_all (m : Mnemonic) : m ∈ all := by cases m <;> decide

end Mnemonic

/-- The name shown for a number's mnemonic. -/
def mnemonicName : Option Mnemonic → String
  | some m => m.name
  | none => "???"

end Disasm6502
