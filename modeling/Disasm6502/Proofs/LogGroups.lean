import Mathlib.Algebra.Order.Ring.Nat
import Mathlib.Data.List.DropRight
import Mathlib.Data.List.SplitBy
import Disasm6502.Log.Recorder

/-!
The log as a bounded run-length encoding. `Log.groups` has one entry for each maximal run of equal
messages. It is the only list of entries that stands for the messages and has no two equal
neighbours (`groups_eq_of_encodes`), and one more message changes it at its end only
(`reverse_groups_concat`). Dropping old entries commutes with that (`take_count`), so the log holds
the last entries of the whole encoding after any messages (`entries_addAll`) and after any calls,
however the details of messages are formatted.
-/

namespace Disasm6502

namespace Entry

/-- The messages that an entry stands for. -/
def run (e : Entry) : List Message := List.replicate (e.repeated + 1) e.message

/-- The entry for a run of equal messages, which is not empty. -/
def ofRun? : List Message → Option Entry
  | [] => none
  | m :: more => some ⟨m, more.length⟩

/-- The entry of a message that is not repeated. -/
def single (m : Message) : Entry := ⟨m.clean, 0⟩

@[simp] theorem ofRun?_run (e : Entry) : ofRun? e.run = some e := by
  simp [run, List.replicate_succ, ofRun?]

theorem run_ne_nil (e : Entry) : e.run ≠ [] := by simp [run]

theorem length_run (e : Entry) : e.run.length = e.repeated + 1 := List.length_replicate

end Entry

namespace Log

/-! ## Run-length encoding -/

/-- One entry for each maximal run of equal messages. -/
def groups (ms : List Message) : List Entry := (ms.splitBy (· == ·)).filterMap Entry.ofRun?

/-- The entries stand for the messages, and each of them for as many as possible. -/
structure Encodes (es : List Entry) (ms : List Message) : Prop where
  flatMap_run : es.flatMap Entry.run = ms
  isChain : (es.map Entry.message).IsChain (· ≠ ·)

theorem splitBy_of_encodes {es : List Entry} {ms : List Message} (h : Encodes es ms) :
    ms.splitBy (· == ·) = es.map Entry.run := by
  rw [List.splitBy_eq_iff]
  refine ⟨?_, ?_, ?_, ?_⟩
  · rw [← List.flatMap_def, h.flatMap_run]
  · intro hnil
    obtain ⟨e, _, he⟩ := List.mem_map.1 hnil
    exact e.run_ne_nil he
  · intro run hrun
    obtain ⟨e, _, rfl⟩ := List.mem_map.1 hrun
    exact List.isChain_replicate_of_rel _ (beq_self_eq_true e.message)
  · rw [List.isChain_map]
    refine ((List.isChain_map _).1 h.isChain).imp fun a b hab => ⟨a.run_ne_nil, b.run_ne_nil, ?_⟩
    simpa [Entry.run] using hab

theorem groups_eq_of_encodes {es : List Entry} {ms : List Message} (h : Encodes es ms) :
    groups ms = es := by
  simp [groups, splitBy_of_encodes h, List.filterMap_map]

/-- Count a message at the front of the entries, which are held newest first. -/
def count (m : Message) : List Entry → List Entry
  | [] => [⟨m, 0⟩]
  | e :: older =>
    if e.message = m then { e with repeated := e.repeated + 1 } :: older else ⟨m, 0⟩ :: e :: older

theorem encodes_count {es : List Entry} {ms : List Message} (h : Encodes es.reverse ms)
    (m : Message) : Encodes (count m es).reverse (ms ++ [m]) := by
  obtain ⟨rfl, hchain⟩ := h
  cases es with
  | nil => exact ⟨rfl, List.isChain_singleton _⟩
  | cons e older =>
    by_cases hm : e.message = m
    · have hcount : count m (e :: older) = { e with repeated := e.repeated + 1 } :: older :=
        if_pos hm
      rw [hcount]
      refine ⟨?_, ?_⟩
      · simp [Entry.run, List.replicate_succ', hm]
      · simpa using hchain
    · have hcount : count m (e :: older) = ⟨m, 0⟩ :: e :: older := if_neg hm
      rw [hcount]
      refine ⟨?_, ?_⟩
      · simp [Entry.run]
      · rw [List.reverse_cons, List.map_append, List.isChain_append]
        refine ⟨hchain, List.isChain_singleton _, ?_⟩
        simpa using hm

/-- Every sequence of messages has a run-length encoding, and `groups` is it. -/
theorem encodes_groups (ms : List Message) : Encodes (groups ms) ms := by
  have hexists : ∃ es : List Entry, Encodes es.reverse ms := by
    induction ms using List.reverseRecOn with
    | nil => exact ⟨[], rfl, .nil⟩
    | append_singleton ms m ih =>
      obtain ⟨es, hes⟩ := ih
      exact ⟨count m es, encodes_count hes m⟩
  obtain ⟨es, hes⟩ := hexists
  rw [groups_eq_of_encodes hes]
  exact hes

/-- One more message continues the last run or starts a new one. -/
theorem reverse_groups_concat (ms : List Message) (m : Message) :
    (groups (ms ++ [m])).reverse = count m (groups ms).reverse := by
  have hencodes : Encodes (groups ms).reverse.reverse ms := by
    rw [List.reverse_reverse]
    exact encodes_groups ms
  rw [groups_eq_of_encodes (encodes_count hencodes m), List.reverse_reverse]

/-- Messages without a repetition have an entry each. -/
theorem groups_of_isChain {ms : List Message} (h : ms.IsChain (· ≠ ·)) :
    groups ms = ms.map fun m => ⟨m, 0⟩ := by
  refine groups_eq_of_encodes ⟨?_, ?_⟩
  · simp [List.flatMap_map, Entry.run]
  · simpa [List.map_map, Function.comp_def] using h

theorem Encodes.message_mem {es : List Entry} {ms : List Message} (h : Encodes es ms) {e : Entry}
    (he : e ∈ es) : e.message ∈ ms := by
  rw [← h.flatMap_run, List.mem_flatMap]
  exact ⟨e, he, by simp [Entry.run]⟩

theorem Encodes.sum_eq {es : List Entry} {ms : List Message} (h : Encodes es ms) :
    (es.map fun e => e.repeated + 1).sum = ms.length := by
  rw [← h.flatMap_run, List.length_flatMap]
  simp only [Entry.length_run]

/-! ## The bound -/

/-- What is dropped later may be dropped at once: a count never looks behind the newest entry. -/
theorem take_count {n : Nat} (hn : 0 < n) (m : Message) (es : List Entry) :
    (count m (es.take n)).take n = (count m es).take n := by
  obtain ⟨n, rfl⟩ := Nat.exists_eq_succ_of_ne_zero (Nat.ne_of_gt hn)
  cases es with
  | nil => rfl
  | cons e older =>
    rw [List.take_succ_cons]
    by_cases hm : e.message = m
    · simp [count, hm, List.take_take]
    · cases n with
      | zero => simp [count, hm]
      | succ n => simp [count, hm, List.take_take]

theorem recent_add {l : Log} (h : l.recent.length ≤ capacity) (m : Message) :
    (l.add m).recent = (count m.clean l.recent).take capacity := by
  cases hr : l.recent with
  | nil => simp [add, count, hr, capacity]
  | cons e older =>
    by_cases hm : e.message = m.clean
    · have hfit : older.length + 1 ≤ capacity := by simpa [hr] using h
      rw [count, if_pos hm, List.take_of_length_le hfit]
      simp [add, hr, hm]
    · simp [add, count, hr, hm]

theorem addAll_concat (l : Log) (ms : List Message) (m : Message) :
    l.addAll (ms ++ [m]) = (l.addAll ms).add m := by
  simp [addAll]

theorem recent_addAll (ms : List Message) :
    (empty.addAll ms).recent = (groups (ms.map Message.clean)).reverse.take capacity := by
  induction ms using List.reverseRecOn with
  | nil => rfl
  | append_singleton ms m ih =>
    have hbound : (empty.addAll ms).recent.length ≤ capacity := by
      rw [ih, List.length_take]
      exact Nat.min_le_left _ _
    rw [addAll_concat, recent_add hbound, ih, take_count (by decide), List.map_append,
      List.map_singleton, reverse_groups_concat]

/-- After any messages the log holds the last groups of them. -/
theorem entries_addAll (ms : List Message) :
    (empty.addAll ms).entries = (groups (ms.map Message.clean)).rtake capacity := by
  rw [entries, recent_addAll, List.rtake_eq_reverse_take_reverse]

/-- A few messages of which no two in a row are equal make one entry each. -/
theorem entries_addAll_of_isChain {ms : List Message}
    (h : (ms.map Message.clean).IsChain (· ≠ ·)) (hlength : ms.length ≤ capacity) :
    (empty.addAll ms).entries = ms.map Entry.single := by
  have hshort : (ms.map Message.clean).length - capacity = 0 := by
    rw [List.length_map]
    omega
  rw [entries_addAll, groups_of_isChain h, List.rtake, List.length_map, hshort, List.drop_zero,
    List.map_map]
  rfl

end Log

/-! ## Calls -/

/-- The calls that can be made of a recorder. Templates are filled with values of type `α`. -/
inductive Call (α : Type) where
  | log (m : Message)
  | logf (tag : Bytes) (template : String) (values : List α)
  | clear
  | setEcho (echo : Echo) (stream : Sink)
  | write
  | tail (n : Int)
  deriving DecidableEq, Repr

namespace Call

variable {α : Type} (format : Formatter α)

/-- The message that a call logs. -/
def message? : Call α → Option Message
  | log m => some m
  | logf tag template values => some ⟨tag, format template values⟩
  | clear | setEcho _ _ | write | tail _ => none

def isClear : Call α → Bool
  | clear => true
  | log _ | logf _ _ _ | setEcho _ _ | write | tail _ => false

/-- The messages logged since the log was last cleared. -/
def loggedSinceClear (cs : List (Call α)) : List Message :=
  (cs.rtakeWhile fun c => !c.isClear).filterMap (message? format)

theorem loggedSinceClear_concat (cs : List (Call α)) (c : Call α) :
    loggedSinceClear format (cs ++ [c]) =
      if c.isClear then [] else loggedSinceClear format cs ++ (c.message? format).toList := by
  cases hc : c.isClear with
  | true => simp [loggedSinceClear, hc]
  | false => cases hm : c.message? format <;> simp [loggedSinceClear, hc, hm]

end Call

namespace Recorder

variable {α : Type} (format : Formatter α)

/-- What a call writes to the writer it is given, and the recorder after it. -/
def call (r : Recorder) : Call α → Bytes × Recorder
  | .log m => ([], r.record m)
  | .logf tag template values => ([], r.recordf format tag template values)
  | .clear => ([], r.clear)
  | .setEcho echo stream => ([], r.setEcho echo stream)
  | .write => (r.log.text, r)
  | .tail n => (r.log.tail n, r)

/-- The recorder after some calls. -/
def calls (r : Recorder) (cs : List (Call α)) : Recorder :=
  cs.foldl (fun r c => (r.call format c).2) r

theorem calls_concat (r : Recorder) (cs : List (Call α)) (c : Call α) :
    r.calls format (cs ++ [c]) = ((r.calls format cs).call format c).2 := by
  simp [calls]

/-- A call clears the log or adds its message, if it has one. -/
theorem log_call (r : Recorder) (c : Call α) :
    (r.call format c).2.log =
      if c.isClear then .empty else r.log.addAll (c.message? format).toList := by
  cases c <;> rfl

theorem log_calls (cs : List (Call α)) :
    (silent.calls format cs).log = Log.empty.addAll (Call.loggedSinceClear format cs) := by
  induction cs using List.reverseRecOn with
  | nil => rfl
  | append_singleton cs c ih =>
    rw [calls_concat, log_call, Call.loggedSinceClear_concat, ih]
    cases c.isClear with
    | true => rfl
    | false => simp [Log.addAll]

/-- After any calls the log holds the last groups of the messages logged since it was cleared.
Neighbours differ, every entry is one line, and as long as nothing had to be dropped all messages
are counted. -/
theorem entries_calls (cs : List (Call α)) :
    let whole := Log.groups ((Call.loggedSinceClear format cs).map Message.clean)
    let entries := (silent.calls format cs).log.entries
    entries = whole.rtake 256 ∧ entries.length ≤ 256 ∧
      (entries.map Entry.message).IsChain (· ≠ ·) ∧
      (∀ e ∈ entries, newline ∉ e.message.tag ∧ newline ∉ e.message.detail) ∧
      (whole.length ≤ 256 →
        (entries.map fun e => e.repeated + 1).sum =
          (Call.loggedSinceClear format cs).length) := by
  intro whole entries
  have hentries : entries = whole.rtake 256 := by
    simp only [entries, log_calls]
    exact Log.entries_addAll _
  have hencodes : Log.Encodes whole ((Call.loggedSinceClear format cs).map Message.clean) :=
    Log.encodes_groups _
  have hsuffix : entries <:+ whole := by
    rw [hentries]
    exact List.drop_suffix _ _
  refine ⟨hentries, ?_, ?_, ?_, ?_⟩
  · rw [hentries, List.rtake, List.length_drop]
    omega
  · exact hencodes.isChain.suffix (hsuffix.map _)
  · intro e he
    obtain ⟨m, _, hm⟩ := List.mem_map.1 (hencodes.message_mem (hsuffix.subset he))
    rw [← hm]
    exact ⟨m.newline_notMem_tag_clean, m.newline_notMem_detail_clean⟩
  · intro hall
    have hwhole : entries = whole := by
      rw [hentries, List.rtake, Nat.sub_eq_zero_of_le hall, List.drop_zero]
    rw [hwhole, hencodes.sum_eq, List.length_map]

example :
    (silent.calls (fun template (_ : List Nat) => utf8 template)
      [.log ⟨utf8 "a", utf8 "b"⟩, .write, .logf (utf8 "a\n") "b" []]).log.entries =
      [⟨⟨utf8 "a", utf8 "b"⟩, 1⟩] := by
  decide

end Recorder

end Disasm6502
