/-!
Byte strings, the carrier of every text that is read, stored or written. A write may stop in the
middle of a character and a log line may hold bytes that form no character, so text is kept as the
bytes it consists of and a `String` enters through its UTF-8 form.
-/

namespace Disasm6502

abbrev Bytes := List UInt8

/-- The UTF-8 form of a string. -/
def utf8 (s : String) : Bytes := s.toByteArray.data.toList

/-- The byte that ends a line. -/
def newline : UInt8 := 0x0A

/-- The lines of a text, each with its newline; only the last one may lack it. No line is empty. -/
def lines (text : Bytes) : List Bytes :=
  text.foldr (fun b rest =>
    if b = newline then [b] :: rest
    else match rest with
      | [] => [[b]]
      | line :: more => (b :: line) :: more) []

/-- A 16-bit value from its two bytes, low byte first. -/
def word (low high : UInt8) : UInt16 := low.toUInt16 ||| (high.toUInt16 <<< 8)

def lowByte (w : UInt16) : UInt8 := w.toUInt8

def highByte (w : UInt16) : UInt8 := (w >>> 8).toUInt8

/-- The 16-bit value in the first two bytes, if there are two. -/
def word? : Bytes → Option UInt16
  | low :: high :: _ => some (word low high)
  | _ => none

@[simp] theorem lines_nil : lines [] = [] := rfl

/-- Cutting into lines loses nothing. -/
theorem flatten_lines (text : Bytes) : (lines text).flatten = text := by
  induction text with
  | nil => rfl
  | cons b text ih =>
    have unfold_cons : lines (b :: text) = if b = newline then [b] :: lines text
        else match lines text with
          | [] => [[b]]
          | line :: more => (b :: line) :: more := rfl
    rw [unfold_cons]
    by_cases h : b = newline
    · simp [h, ih]
    · cases hl : lines text with
      | nil => rw [hl] at ih; simp [h, ← ih]
      | cons line more => rw [hl] at ih; simp [h, ← ih]

end Disasm6502
