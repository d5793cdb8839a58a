import Disasm6502.Program.AddressWidth
import Disasm6502.Program.Basic
import Disasm6502.Sink

/-!
Listings: one row per instruction with its address and text, rows joined by newlines. Addresses
start at `baseAddress` and grow by the sizes of the instructions. `lines` collects its rows last
first, so that long programs need no deep recursion, and the text is built from its end;
`lines_eq_linesFrom`, `listing_eq_intercalate` and `output_eq_listing` give the plain forms.
-/

namespace Disasm6502

/-- One row of a listing. -/
structure Line where
  address : Nat
  instruction : Instruction
  deriving DecidableEq, Repr

namespace Line

/-- A row in front of a text. -/
def before (width : Nat) (l : Line) (rest : Bytes) : Bytes :=
  utf8 "$" ++ (Numeral.hex width l.address ++ (utf8 "    " ++ (l.instruction.text ++ rest)))

/-- Address in `width` digits or more, four spaces, instruction. -/
def text (width : Nat) (l : Line) : Bytes :=
  utf8 "$" ++ Numeral.hex width l.address ++ utf8 "    " ++ l.instruction.text

theorem before_eq_text (width : Nat) (l : Line) (rest : Bytes) :
    l.before width rest = l.text width ++ rest := by
  simp [before, text]

end Line

namespace Program

/-- The rows of instructions that start at an address. -/
def linesFrom (address : Nat) : List Instruction → List Line
  | [] => []
  | i :: rest => ⟨address, i⟩ :: linesFrom (address + i.size) rest

/-- The same rows behind those already collected, which are held last first. -/
def linesOnto (address : Nat) (done : List Line) : List Instruction → List Line
  | [] => done.reverse
  | i :: rest => linesOnto (address + i.size) (⟨address, i⟩ :: done) rest

def lines (p : Program) : List Line := linesOnto baseAddress [] p.instructions

/-- The number of digits of the address column. -/
def width (p : Program) : Nat := addressWidth (p.size + baseAddress).toNat

def rows (p : Program) : List Bytes := p.lines.map (Line.text p.width)

/-- Rows joined by newlines in front of a text, built from the last row on. -/
def joinBefore (width : Nat) (rest : Bytes) : List Line → Bytes
  | [] => rest
  | first :: more =>
    first.before width (more.foldr (fun l after => newline :: l.before width after) rest)

/-- The listing, without a newline at its end. -/
def listing (p : Program) : Bytes := joinBefore p.width [] p.lines

/-- The listing as it is written out, with a newline at its end. -/
def output (p : Program) : Bytes := joinBefore p.width [newline] p.lines

theorem linesOnto_eq (address : Nat) (done : List Line) (is : List Instruction) :
    linesOnto address done is = done.reverse ++ linesFrom address is := by
  induction is generalizing address done with
  | nil => simp [linesOnto, linesFrom]
  | cons i is ih => simp [linesOnto, linesFrom, ih]

theorem lines_eq_linesFrom (p : Program) : p.lines = linesFrom baseAddress p.instructions := by
  simp [lines, linesOnto_eq]

theorem joinBefore_eq (width : Nat) (rest : Bytes) (ls : List Line) :
    joinBefore width rest ls = [newline].intercalate (ls.map (Line.text width)) ++ rest := by
  have foldr_eq (more : List Line) (first : Bytes) :
      first ++ more.foldr (fun l after => newline :: (l.text width ++ after)) rest =
        [newline].intercalate (first :: more.map (Line.text width)) ++ rest := by
    induction more generalizing first with
    | nil => simp [List.intercalate]
    | cons l more ih => simp [List.intercalate, ih (l.text width)]
  cases ls with
  | nil => simp [joinBefore, List.intercalate]
  | cons first more =>
    simpa [joinBefore, Line.before_eq_text] using foldr_eq more (first.text width)

theorem listing_eq_intercalate (p : Program) : p.listing = [newline].intercalate p.rows := by
  simp [listing, rows, joinBefore_eq]

theorem output_eq_listing (p : Program) : p.output = p.listing ++ [newline] := by
  simp [output, listing, joinBefore_eq]

end Program

/-- The listing of all of the code; no code has the empty listing. -/
def disassemble (code : Bytes) : Except DecodeFailure Bytes :=
  if code.isEmpty then .ok []
  else match Program.decode code code.length with
    | .error f => .error f
    | .ok p => .ok p.listing

end Disasm6502
