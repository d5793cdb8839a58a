import Disasm6502.Opcode.Mnemonic

/-!
The opcode matrix: every opcode byte has a mnemonic, found in the row of its high half and the
column of its low half, and through it the addressing mode and the length of its instruction.
-/

namespace Disasm6502.Opcode

def matrix : List (List Mnemonic) :=
  [[.brk, .ora, .stp, .slo, .nop, .ora, .asl, .slo,
    .php, .ora, .asl, .anc, .nop, .ora, .asl, .slo],
   [.bpl, .ora, .stp, .slo, .nop, .ora, .asl, .slo,
    .clc, .ora, .nop, .slo, .nop, .ora, .asl, .slo],
   [.jsr, .and, .stp, .rla, .bit, .and, .rol, .rla,
    .plp, .and, .rol, .anc, .bit, .and, .rol, .rla],
   [.bmi, .and, .stp, .rla, .nop, .and, .rol, .rla,
    .sec, .and, .nop, .rla, .nop, .and, .rol, .rla],
   [.rti, .eor, .stp, .sre, .nop, .eor, .lsr, .sre,
    .pha, .eor, .lsr, .alr, .jmp, .eor, .lsr, .sre],
   [.bvc, .eor, .stp, .sre, .nop, .eor, .lsr, .sre,
    .cli, .eor, .nop, .sre, .nop, .eor, .lsr, .sre],
   [.rts, .adc, .stp, .rra, .nop, .adc, .ror, .rra,
    .pla, .adc, .ror, .arr, .jmp, .adc, .ror, .rra],
   [.bvs, .adc, .stp, .rra, .nop, .adc, .ror, .rra,
    .sei, .adc, .nop, .rra, .nop, .adc, .ror, .rra],
   [.nop, .sta, .nop, .sax, .sty, .sta, .stx, .sax,
    .dey, .nop, .txa, .xaa, .sty, .sta, .stx, .sax],
   [.bcc, .sta, .stp, .ahx, .sty, .sta, .stx, .sax,
    .tya, .sta, .txs, .tas, .shy, .sta, .shx, .ahx],
   [.ldy, .lda, .ldx, .lax, .ldy, .lda, .ldx, .lax,
    .tay, .lda, .tax, .lxa, .ldy, .lda, .ldx, .lax],
   [.bcs, .lda, .stp, .lax, .ldy, .lda, .ldx, .lax,
    .clv, .lda, .tsx, .las, .ldy, .lda, .ldx, .lax],
   [.cpy, .cmp, .nop, .dcp, .cpy, .cmp, .dec, .dcp,
    .iny, .cmp, .dex, .axs, .cpy, .cmp, .dec, .dcp],
   [.bne, .cmp, .stp, .dcp, .nop, .cmp, .dec, .dcp,
    .cld, .cmp, .nop, .dcp, .nop, .cmp, .dec, .dcp],
   [.cpx, .sbc, .nop, .isc, .cpx, .sbc, .inc, .isc,
    .inx, .sbc, .nop, .sbc, .cpx, .sbc, .inc, .isc],
   [.beq, .sbc, .stp, .isc, .nop, .sbc, .inc, .isc,
    .sed, .sbc, .nop, .isc, .nop, .sbc, .inc, .isc]]

def mnemonic (op : UInt8) : Mnemonic :=
  (matrix.getD (op.toNat / 16) []).getD (op.toNat % 16) .stp

/-- The modes the opcode's instruction accepts. -/
def modes (op : UInt8) : ModeSet := (mnemonic op).modes

/-- Every opcode byte, ascending. -/
def all : List UInt8 := (List.range 256).map UInt8.ofNat

/-- The mode of the opcode's operand; `none` if it takes no operand. -/
def mode? (op : UInt8) : Option Mode :=
  if (modes op).isEmpty then none else (modes op).resolve op

/-- The length of an instruction that starts with this opcode. -/
def length (op : UInt8) : Nat := 1 + modeSize (mode? op)

end Disasm6502.Opcode
