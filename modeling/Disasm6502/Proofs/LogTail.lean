import Mathlib.Data.List.Infix
import Disasm6502.Proofs.Echo
import Disasm6502.Proofs.LogGroups
import Disasm6502.Proofs.Numeral

/-!
The end of the log as text. Only clean messages are kept (`clean_of_mem_entries_addAll`), so an
entry takes one line, whatever its repeat note says, and the end of the text is found by counting
lines from behind. `tailAt?` finds it by position instead, in machine integers and with a position
that could lie outside of the log; `tailAt?_eq` says that it never does.
-/

namespace Disasm6502

/-! ## Entries as lines -/

namespace Entry

/-- The line of an entry without its newline. -/
def body (e : Entry) : Bytes :=
  e.message.tag ++ utf8 ": " ++ e.message.detail ++ repeatNote e.repeated

theorem text_eq_body_concat (e : Entry) : e.text = e.body ++ [newline] := rfl

theorem newline_notMem_repeatNote (n : Nat) : newline ∉ repeatNote n := by
  cases n with
  | zero => exact List.not_mem_nil
  | succ n =>
    have hdecimal : newline ∉ Numeral.decimal (n + 2) := Numeral.notMem_decimal (by decide) _
    simp +decide only [repeatNote, List.mem_append, hdecimal, or_self, not_false_eq_true]

theorem newline_notMem_body {e : Entry} (h : e.message.clean = e.message) : newline ∉ e.body := by
  have hmessage := e.message.newline_notMem_clean
  rw [h] at hmessage
  rw [body, List.mem_append, not_or]
  exact ⟨hmessage, newline_notMem_repeatNote e.repeated⟩

/-- Every entry is on a line of its own. -/
theorem lines_flatMap_text {es : List Entry} (h : ∀ e ∈ es, newline ∉ e.body) :
    lines (es.flatMap text) = es.map text :=
  lines_flatMap_newline body h

end Entry

namespace Log

/-- No entry holds a newline: its message was cleaned before it came into the log. -/
theorem clean_of_mem_entries_addAll {ms : List Message} {e : Entry}
    (he : e ∈ (empty.addAll ms).entries) : e.message.clean = e.message := by
  rw [entries_addAll] at he
  have hgroup : e ∈ groups (ms.map Message.clean) := (List.drop_suffix _ _).subset he
  obtain ⟨m, -, hm⟩ := List.mem_map.1 ((encodes_groups _).message_mem hgroup)
  rw [← hm, Message.clean_clean]

theorem length_entries_addAll_le (ms : List Message) :
    (empty.addAll ms).entries.length ≤ capacity := by
  rw [entries_addAll, List.rtake, List.length_drop]
  omega

/-! ## The last entries -/

theorem tail_eq_flatMap_rtake (l : Log) (n : Int) :
    l.tail n = (l.entries.rtake n.toNat).flatMap Entry.text := by
  rw [tail, List.rtake_eq_reverse_take_reverse, entries, List.reverse_reverse]

theorem tail_isSuffix_text (l : Log) (n : Int) : l.tail n <:+ l.text := by
  rw [tail_eq_flatMap_rtake, text]
  exact (List.drop_suffix _ _).flatMap _

/-- The entries from a position on, which is that of an entry or the one behind the last. -/
def from? (l : Log) (start : Int) : Option (List Entry) :=
  if 0 ≤ start ∧ start ≤ l.entries.length then some (l.entries.drop start.toNat) else none

/-- How many of `count` entries are shown when `n` are asked for. -/
def shownCount (count n : Int64) : Int64 :=
  let most := if count < n then count else n
  if most < 0 then 0 else most

/-- The lines of the last `n` entries, found by the position of the first of them. There is no
result if that position is outside of the log. -/
def tailAt? (l : Log) (n : Int64) : Option Bytes :=
  let count := Int64.ofNat l.entries.length
  (l.from? (count - shownCount count n).toInt).map fun es => es.flatMap Entry.text

theorem toInt_shownCount {count : Int64} (h : 0 ≤ count.toInt) (n : Int64) :
    (shownCount count n).toInt = min (max n.toInt 0) count.toInt := by
  simp only [shownCount, Int64.lt_iff_toInt_lt]
  by_cases hmany : count.toInt < n.toInt
  · rw [if_pos hmany, if_neg (by simpa using h)]
    omega
  · rw [if_neg hmany]
    by_cases hneg : n.toInt < 0
    · rw [if_pos (by simpa using hneg), Int64.toInt_zero]
      omega
    · rw [if_neg (by simpa using hneg)]
      omega

/-- The position wraps around for no number that is asked for. -/
theorem toInt_sub_shownCount {count : Int64} (h : 0 ≤ count.toInt) (n : Int64) :
    (count - shownCount count n).toInt = count.toInt - min (max n.toInt 0) count.toInt := by
  have hcount := count.toInt_lt
  rw [Int64.toInt_sub, toInt_shownCount h]
  exact Int.bmod_eq_of_le (by omega) (by omega)

/-- The position is always one of the log, and the last entries start there. -/
theorem tailAt?_eq {l : Log} (h : l.entries.length < 2 ^ 63) (n : Int64) :
    l.tailAt? n = some (l.tail n.toInt) := by
  have hcount : (Int64.ofNat l.entries.length).toInt = l.entries.length :=
    Int64.toInt_ofNat_of_lt h
  have hnonneg : 0 ≤ (Int64.ofNat l.entries.length).toInt := by
    rw [hcount]
    exact Int.natCast_nonneg _
  have hstart := toInt_sub_shownCount hnonneg n
  rw [hcount] at hstart
  -- The clamped number and the plain one leave out the same entries.
  have hdrop : (l.entries.length - min (max n.toInt 0) l.entries.length : Int).toNat =
      l.entries.length - n.toInt.toNat := by omega
  rw [tailAt?, hstart, from?, if_pos (by omega), hdrop, tail_eq_flatMap_rtake]
  rfl

end Log

/-! ## Showing the log -/

namespace Recorder

/-- After any calls, the log is written with one line for each entry, and what is shown of its end
are the last of these lines: as many as are asked for, none for a negative number and all if there
are fewer. They are found by a position that is never outside of the log. Showing the log, whole or
in part, leaves it as it is. -/
theorem tail_ends_write {α : Type} (format : Formatter α) (cs : List (Call α)) (n : Int) :
    let r := silent.calls format cs
    let whole := (r.call format .write).1
    let shown := (r.call format (.tail n)).1
    shown <:+ whole ∧
      lines whole = r.log.entries.map Entry.text ∧
      (∀ line ∈ lines whole, ∃ body, line = body ++ [newline] ∧ newline ∉ body) ∧
      lines shown <:+ lines whole ∧
      ((lines shown).length : Int) = min (max n 0) r.log.entries.length ∧
      (∀ word : Int64, r.log.tailAt? word = some (r.call format (.tail word.toInt)).1) ∧
      (r.call format .write).2 = r ∧ (r.call format (.tail n)).2 = r := by
  intro r whole shown
  -- A log that was reached in any way is one that was filled, so what was dropped or cleared on the
  -- way is of no concern.
  have hlog : r.log = Log.empty.addAll (Call.loggedSinceClear format cs) :=
    log_calls format cs
  have hbody : ∀ e ∈ r.log.entries, newline ∉ e.body := by
    intro e he
    rw [hlog] at he
    exact Entry.newline_notMem_body (Log.clean_of_mem_entries_addAll he)
  have hsuffix : r.log.entries.rtake n.toNat <:+ r.log.entries := List.drop_suffix _ _
  have hwhole : lines whole = r.log.entries.map Entry.text := Entry.lines_flatMap_text hbody
  have hshown : lines shown = (r.log.entries.rtake n.toNat).map Entry.text := by
    show lines (r.log.tail n) = _
    rw [Log.tail_eq_flatMap_rtake]
    exact Entry.lines_flatMap_text fun e he => hbody e (hsuffix.subset he)
  refine ⟨r.log.tail_isSuffix_text n, hwhole, ?_, ?_, ?_, ?_, rfl, rfl⟩
  · intro line hline
    rw [hwhole] at hline
    obtain ⟨e, he, rfl⟩ := List.mem_map.1 hline
    exact ⟨e.body, e.text_eq_body_concat, hbody e he⟩
  · rw [hwhole, hshown]
    exact hsuffix.map _
  · rw [hshown, List.length_map, List.rtake, List.length_drop]
    omega
  · intro word
    have hlength : r.log.entries.length ≤ Log.capacity := by
      rw [hlog]
      exact Log.length_entries_addAll_le _
    exact Log.tailAt?_eq (hlength.trans_lt (by decide)) word

example :
    let r := silent.calls decimalFormat [.log ⟨utf8 "a", utf8 "b"⟩, .log ⟨utf8 "c", utf8 "d\n"⟩,
      .tail 7, .log ⟨utf8 "c", utf8 "d "⟩]
    r.log.tailAt? 1 = some (utf8 "c: d  (repeat x2)\n") ∧ r.log.tailAt? (-3) = some [] := by
  decide

end Recorder

end Disasm6502
