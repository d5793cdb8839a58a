import Disasm6502.Sink

/-!
Highlighting of log lines for a terminal: on each line the part before the first colon that is
followed by a space stands between two pens. A line without such a colon is left as it is.
-/

namespace Disasm6502.Highlight

def boldPen : Bytes := 0x1B :: utf8 "[1m"

def normalPen : Bytes := 0x1B :: utf8 "[0m"

/-- Cut a line whose bytes up to here, held last first, are `before`. -/
def cutTagAfter (before : Bytes) : Bytes → Option (Bytes × Bytes)
  | [] => none
  | b :: rest =>
    if b = 0x3A ∧ rest.head? = some 0x20 then some (before.reverse, rest.tail)
    else cutTagAfter (b :: before) rest

/-- The part of a line before its first colon and space, and the part after them. -/
def cutTag? (line : Bytes) : Option (Bytes × Bytes) := cutTagAfter [] line

def line (text : Bytes) : Bytes :=
  match cutTag? text with
  | none => text
  | some (tag, detail) => boldPen ++ tag ++ normalPen ++ utf8 ": " ++ detail

/-- A text with the tag of each line highlighted. -/
def text (plain : Bytes) : Bytes := (lines plain).flatMap line

/-- Write a text highlighted, all in one write. The count is the number of bytes of the plain text,
or `none` if the write did not fit whole. -/
def write (s : Sink) (plain : Bytes) : Option Nat × Sink :=
  let shown := text plain
  (if s.fits shown then some plain.length else none, s.write shown)

theorem cutTagAfter_eq (before line : Bytes) :
    cutTagAfter before line =
      (cutTag? line).map fun (tag, detail) => (before.reverse ++ tag, detail) := by
  induction line generalizing before with
  | nil => rfl
  | cons b rest ih =>
    simp only [cutTag?, cutTagAfter]
    split
    · simp
    · rw [ih (b :: before), ih [b]]
      cases cutTag? rest <;> simp

@[simp] theorem cutTag?_nil : cutTag? [] = none := rfl

theorem cutTag?_cons (b : UInt8) (rest : Bytes) :
    cutTag? (b :: rest) =
      if b = 0x3A ∧ rest.head? = some 0x20 then some ([], rest.tail)
      else (cutTag? rest).map fun (tag, detail) => (b :: tag, detail) := by
  rw [cutTag?, cutTagAfter]
  split
  · rfl
  · rw [cutTagAfter_eq]; rfl

theorem eq_of_cutTag? {text tag detail : Bytes} (h : cutTag? text = some (tag, detail)) :
    text = tag ++ utf8 ": " ++ detail := by
  induction text generalizing tag with
  | nil => simp at h
  | cons b rest ih =>
    rw [cutTag?_cons] at h
    split at h
    · rename_i hb
      cases h
      cases rest with
      | nil => simp at hb
      | cons c rest => simp_all; rfl
    · obtain ⟨⟨t, d⟩, ht, heq⟩ := Option.map_eq_some_iff.1 h
      cases heq
      simp [ih ht]

end Disasm6502.Highlight
