import Disasm6502.Text.Bytes

/-!
Destinations of output. A sink with limited room stores the part of a write that fits; a write that
does not fit whole has failed and leaves no room. An empty write always succeeds. What was received
is held write by write, so that a write does not copy what came before it; `written` is the plain
view and `written_write` says what a write adds to it.
-/

namespace Disasm6502

structure Sink where
  /-- The number of bytes it still accepts; `none` for any number. -/
  room : Option Nat
  /-- What it has stored of each write, latest first. -/
  pieces : List Bytes
  deriving DecidableEq, Repr

namespace Sink

/-- An empty sink that accepts everything. -/
def unlimited : Sink := ⟨none, []⟩

/-- An empty sink that accepts `n` bytes in all. -/
def limited (n : Nat) : Sink := ⟨some n, []⟩

/-- All the sink has received. What came in one piece is not copied. -/
def written (s : Sink) : Bytes :=
  match s.pieces with
  | [piece] => piece
  | pieces => pieces.reverse.flatten

/-- The part of a write that the sink stores. -/
def accepted (s : Sink) (bytes : Bytes) : Bytes :=
  match s.room with
  | none => bytes
  | some n => bytes.take n

/-- Does the sink store the whole write? -/
def fits (s : Sink) (bytes : Bytes) : Bool :=
  match s.room with
  | none => true
  | some n => bytes.length ≤ n

/-- The sink after a write. -/
def write (s : Sink) (bytes : Bytes) : Sink :=
  ⟨s.room.map (· - bytes.length), s.accepted bytes :: s.pieces⟩

/-- The sink with the same room and nothing received. -/
def emptied (s : Sink) : Sink := { s with pieces := [] }

theorem written_eq_flatten (s : Sink) : s.written = s.pieces.reverse.flatten := by
  unfold written
  split
  · simp [*]
  · rfl

@[simp] theorem written_unlimited : unlimited.written = [] := rfl

@[simp] theorem written_limited (n : Nat) : (limited n).written = [] := rfl

@[simp] theorem written_write (s : Sink) (bytes : Bytes) :
    (s.write bytes).written = s.written ++ s.accepted bytes := by
  simp [written_eq_flatten, write]

@[simp] theorem room_write (s : Sink) (bytes : Bytes) :
    (s.write bytes).room = s.room.map (· - bytes.length) := rfl

/-- Two writes store what one write of both texts does. -/
theorem written_write_write (s : Sink) (a b : Bytes) :
    ((s.write a).write b).written = (s.write (a ++ b)).written := by
  cases h : s.room with
  | none => simp [accepted, h]
  | some n => simp [accepted, h, List.take_append]

/-- Two writes leave the room that one write of both texts does. -/
theorem room_write_write (s : Sink) (a b : Bytes) :
    ((s.write a).write b).room = (s.write (a ++ b)).room := by
  cases h : s.room <;> simp [h, Nat.sub_sub]

end Sink

end Disasm6502
