import Disasm6502.Log.Basic
import Disasm6502.Log.Highlight

/-!
The recorder: the log together with the stream that new messages can be echoed to. Echoing shows
each message as it comes, without repeat counts, and a stream that fails changes nothing about the
log.
-/

namespace Disasm6502

inductive Echo where
  | off
  | plain
  | highlighted
  deriving DecidableEq, Repr

/-- A way to put a text together from a template and the values that go into it. -/
abbrev Formatter (α : Type) := String → List α → Bytes

structure Recorder where
  log : Log
  echo : Echo
  /-- Where echoed messages go. -/
  stream : Sink
  deriving DecidableEq, Repr

namespace Recorder

/-- An empty log that echoes nothing. -/
def silent : Recorder := ⟨.empty, .off, .unlimited⟩

/-- The stream after the echo of a message. -/
def echoed (r : Recorder) (m : Message) : Sink :=
  match r.echo with
  | .off => r.stream
  | .plain => r.stream.write m.clean.line
  | .highlighted => (Highlight.write r.stream m.clean.line).2

def record (r : Recorder) (m : Message) : Recorder :=
  { r with log := r.log.add m, stream := r.echoed m }

def recordAll (r : Recorder) (ms : List Message) : Recorder := ms.foldl record r

/-- Record a message whose detail is put together first. -/
def recordf {α : Type} (r : Recorder) (format : Formatter α) (tag : Bytes) (template : String)
    (values : List α) : Recorder :=
  r.record ⟨tag, format template values⟩

def clear (r : Recorder) : Recorder := { r with log := .empty }

/-- Echo to another stream from now on. -/
def setEcho (r : Recorder) (echo : Echo) (stream : Sink) : Recorder :=
  { r with echo := echo, stream := stream }

@[simp] theorem log_record (r : Recorder) (m : Message) : (r.record m).log = r.log.add m := rfl

theorem echoed_of_off {r : Recorder} (h : r.echo = .off) (m : Message) : r.echoed m = r.stream := by
  simp only [echoed, h]

theorem echo_recordAll (r : Recorder) (ms : List Message) : (r.recordAll ms).echo = r.echo := by
  induction ms generalizing r with
  | nil => rfl
  | cons m ms ih => exact ih (r.record m)

@[simp] theorem log_recordAll (r : Recorder) (ms : List Message) :
    (r.recordAll ms).log = r.log.addAll ms := by
  induction ms generalizing r with
  | nil => rfl
  | cons m ms ih => exact ih (r.record m)

end Recorder

end Disasm6502
