import Disasm6502.Decoder.Error
import Disasm6502.Instruction.Basic

/-!
The decoder: a cursor over the code that yields one instruction at a time. It may read up to a
fence, which is the limit or the end of the code, whichever comes first, and it holds the bytes
between cursor and fence. One call of `next` is at most two transitions: the opcode, then its
operand. `settled_step_step` says that two always suffice and `length_rest_next` that a successful
call consumes a byte, which makes loops over the decoder end.
-/

namespace Disasm6502

inductive Phase where
  | awaitingOpcode
  | awaitingOperand (opcode : UInt8)
  | done (instruction : Instruction)
  | failed (error : DecodeError)
  deriving DecidableEq, Repr

namespace Phase

/-- Nothing is pending: the last instruction is complete or decoding has failed. -/
def Settled : Phase → Prop
  | awaitingOpcode | awaitingOperand _ => False
  | done _ | failed _ => True

/-- What a settled phase reports. -/
def outcome : (p : Phase) → p.Settled → Except DecodeError Instruction
  | done i, _ => .ok i
  | failed e, _ => .error e

def error? : Phase → Option DecodeError
  | failed e => some e
  | _ => none

@[simp] theorem outcome_eq_ok_iff {p : Phase} {h : p.Settled} {i : Instruction} :
    p.outcome h = .ok i ↔ p = .done i := by
  cases p with
  | done j => simp [outcome]
  | failed e => simp [outcome]
  | _ => exact h.elim

@[simp] theorem outcome_eq_error_iff {p : Phase} {h : p.Settled} {e : DecodeError} :
    p.outcome h = .error e ↔ p = .failed e := by
  cases p with
  | done j => simp [outcome]
  | failed err => simp [outcome]
  | _ => exact h.elim

end Phase

structure Decoder where
  /-- The number of bytes to decode, which the code need not have. -/
  limit : Nat
  /-- Offset of the cursor. -/
  offset : Nat
  /-- The bytes from the cursor up to the fence. -/
  rest : Bytes
  phase : Phase
  deriving DecidableEq, Repr

namespace Decoder

/-- A decoder at the start of the code. A negative limit counts as zero. -/
def start (code : Bytes) (limit : Int) : Decoder :=
  ⟨limit.toNat, 0, code.take limit.toNat, .awaitingOpcode⟩

def error? (d : Decoder) : Option DecodeError := d.phase.error?

/-- The cursor is short of the limit and decoding has not failed. -/
def more (d : Decoder) : Bool := d.error?.isNone && decide (d.offset < d.limit)

/-- The phase after reading an opcode. -/
def afterOpcode (op : UInt8) : Phase :=
  if (Opcode.modes op).isEmpty then .done (.ofOpcode op none) else .awaitingOperand op

/-- One transition. A settled decoder stays as it is. -/
def step (d : Decoder) : Decoder :=
  match d.phase with
  | .awaitingOpcode =>
    match d.rest with
    | [] => { d with phase := .failed (.unexpectedEnd d.offset 1) }
    | op :: rest => { d with offset := d.offset + 1, rest := rest, phase := afterOpcode op }
  | .awaitingOperand op =>
    match (Opcode.modes op).resolve op with
    | none => { d with phase := .failed (.invalidEncoding op (d.offset - 1) (Opcode.modes op)) }
    | some m =>
      let payload := d.rest.take m.size
      if payload.length < m.size then
        { d with phase := .failed (.unexpectedEnd d.offset (m.size - payload.length : Nat)) }
      else
        { d with
          offset := d.offset + m.size
          rest := d.rest.drop m.size
          phase := .done (.ofOpcode op (some (.ofPayload m payload))) }
  | .done _ | .failed _ => d

/-- The next call starts with an opcode, unless decoding has failed for good. -/
def resume (d : Decoder) : Decoder :=
  match d.phase with
  | .failed _ => d
  | _ => { d with phase := .awaitingOpcode }

/-- Two transitions settle every decoder. -/
theorem settled_step_step (d : Decoder) : d.step.step.phase.Settled := by
  have settled_operand (d : Decoder) (op : UInt8) (h : d.phase = .awaitingOperand op) :
      d.step.phase.Settled := by
    simp only [step, h]
    split
    · trivial
    · split <;> trivial
  have step_of_settled (d : Decoder) (h : d.phase.Settled) : d.step.phase.Settled := by
    cases hp : d.phase <;> simp_all [step, Phase.Settled]
  cases h : d.phase with
  | awaitingOpcode =>
    cases hr : d.rest with
    | nil => exact step_of_settled _ (by simp [step, h, hr, Phase.Settled])
    | cons op rest =>
      by_cases he : (Opcode.modes op).isEmpty = true
      · exact step_of_settled _ (by simp [step, h, hr, afterOpcode, he, Phase.Settled])
      · exact settled_operand _ op (by simp [step, h, hr, afterOpcode, he])
  | awaitingOperand op => exact step_of_settled _ (settled_operand d op h)
  | done i => simp [step, h, Phase.Settled]
  | failed e => simp [step, h, Phase.Settled]

/-- The decoder after decoding the instruction at the cursor. -/
def advance (d : Decoder) : Decoder := d.resume.step.step

theorem settled_advance (d : Decoder) : d.advance.phase.Settled := settled_step_step _

/-- Decode the instruction at the cursor and move past it. After a failure every call reports the
same error. -/
def next (d : Decoder) : Except DecodeError Instruction × Decoder :=
  (d.advance.phase.outcome d.settled_advance, d.advance)

theorem next_eq_ok_iff {d e : Decoder} {i : Instruction} :
    d.next = (.ok i, e) ↔ d.advance = e ∧ e.phase = .done i := by
  simp only [next, Prod.mk.injEq, Phase.outcome_eq_ok_iff]
  constructor
  · rintro ⟨h, rfl⟩; exact ⟨rfl, h⟩
  · rintro ⟨rfl, h⟩; exact ⟨h, rfl⟩

theorem next_eq_error_iff {d e : Decoder} {err : DecodeError} :
    d.next = (.error err, e) ↔ d.advance = e ∧ e.phase = .failed err := by
  simp only [next, Prod.mk.injEq, Phase.outcome_eq_error_iff]
  constructor
  · rintro ⟨h, rfl⟩; exact ⟨rfl, h⟩
  · rintro ⟨rfl, h⟩; exact ⟨h, rfl⟩

theorem length_rest_step_le (d : Decoder) : d.step.rest.length ≤ d.rest.length := by
  cases h : d.phase with
  | awaitingOpcode => cases hr : d.rest <;> simp [step, h, hr]
  | awaitingOperand op =>
    cases hm : (Opcode.modes op).resolve op with
    | none => simp [step, h, hm]
    | some m => simp only [step, h, hm]; split <;> simp
  | done i => simp [step, h]
  | failed e => simp [step, h]

/-- A successful call consumes at least one byte. -/
theorem length_rest_next {d e : Decoder} {i : Instruction} (h : d.next = (.ok i, e)) :
    e.rest.length < d.rest.length := by
  obtain ⟨rfl, hdone⟩ := next_eq_ok_iff.1 h
  have resumed : d.resume.phase = .awaitingOpcode ∧ d.resume.rest = d.rest := by
    cases hp : d.phase with
    | failed err => simp [advance, resume, step, hp] at hdone
    | _ => simp [resume, hp]
  cases hr : d.rest with
  | nil => simp [advance, step, resumed, hr] at hdone
  | cons op rest =>
    have : d.resume.step.rest = rest := by simp [step, resumed, hr]
    calc d.advance.rest.length ≤ d.resume.step.rest.length := length_rest_step_le _
      _ < (op :: rest).length := by simp [this]

end Decoder

end Disasm6502
