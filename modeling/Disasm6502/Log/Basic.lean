import Disasm6502.Log.Message
import Disasm6502.Text.Numeral

/-!
The log: tagged entries, one for each run of equal messages, of which the last `Log.capacity` are
kept. They are held newest first, where messages are added; `Log.entries` is their order in time.
-/

namespace Disasm6502

/-- A message and how often it was repeated at once. -/
structure Entry where
  message : Message
  repeated : Nat
  deriving DecidableEq, Repr

namespace Entry

/-- The part of the line that tells how many equal messages the entry stands for. -/
def repeatNote : Nat → Bytes
  | 0 => []
  | n + 1 => utf8 " (repeat x" ++ Numeral.decimal (n + 2) ++ utf8 ")"

def text (e : Entry) : Bytes :=
  e.message.tag ++ utf8 ": " ++ e.message.detail ++ repeatNote e.repeated ++ [newline]

end Entry

structure Log where
  /-- The entries, newest first. -/
  recent : List Entry
  deriving DecidableEq, Repr

namespace Log

def capacity : Nat := 256

def empty : Log := ⟨[]⟩

/-- The entries in the order they were made. -/
def entries (l : Log) : List Entry := l.recent.reverse

/-- Add a message, which is cleaned first. A repetition of the last message only counts. -/
def add (l : Log) (m : Message) : Log :=
  match l.recent with
  | [] => ⟨[⟨m.clean, 0⟩]⟩
  | e :: older =>
    if e.message = m.clean then ⟨{ e with repeated := e.repeated + 1 } :: older⟩
    else ⟨(⟨m.clean, 0⟩ :: e :: older).take capacity⟩

def addAll (l : Log) (ms : List Message) : Log := ms.foldl add l

/-- The whole log, one line per entry. -/
def text (l : Log) : Bytes := l.entries.flatMap Entry.text

/-- The lines of the last `n` entries, or of all if there are fewer. -/
def tail (l : Log) (n : Int) : Bytes := (l.recent.take n.toNat).reverse.flatMap Entry.text

end Log

end Disasm6502
