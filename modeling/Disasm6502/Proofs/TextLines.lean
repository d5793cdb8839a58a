import Mathlib.Data.List.TakeWhile
import Disasm6502.Text.Bytes

/-!
Texts as sequences of lines. A text without a newline is its only line, and any other text is a
line, its newline and the text behind it; `line_induction` is induction along this. The lines of a
text are also found by position: `StartsLine` says where one starts and `lineFrom` what it is.
-/

namespace Disasm6502

/-- Induction on the lines of a text: the last one alone, and each one in front of the others. -/
@[elab_as_elim]
theorem line_induction {motive : Bytes → Prop} (last : ∀ body, newline ∉ body → motive body)
    (line : ∀ body rest, newline ∉ body → motive rest → motive (body ++ newline :: rest))
    (text : Bytes) : motive text := by
  induction hn : text.length using Nat.strongRecOn generalizing text with
  | ind n ih =>
    by_cases h : newline ∈ text
    · obtain ⟨body, rest, rfl, hbody⟩ := List.eq_append_cons_of_mem h
      refine line body rest hbody (ih rest.length ?_ rest rfl)
      rw [← hn, List.length_append, List.length_cons]
      omega
    · exact last text h

/-! ## Cutting at newlines -/

theorem lines_cons (b : UInt8) (rest : Bytes) :
    lines (b :: rest) = if b = newline then [b] :: lines rest
      else match lines rest with
        | [] => [[b]]
        | line :: more => (b :: line) :: more := rfl

theorem lines_append_newline {body : Bytes} (h : newline ∉ body) (rest : Bytes) :
    lines (body ++ newline :: rest) = (body ++ [newline]) :: lines rest := by
  induction body with
  | nil => rw [List.nil_append, lines_cons, if_pos rfl, List.nil_append]
  | cons b body ih =>
    rw [List.mem_cons, not_or] at h
    rw [List.cons_append, lines_cons, if_neg (Ne.symm h.1), ih h.2]
    rfl

theorem lines_of_notMem {body : Bytes} (h : newline ∉ body) (hne : body ≠ []) :
    lines body = [body] := by
  induction body with
  | nil => exact absurd rfl hne
  | cons b body ih =>
    rw [List.mem_cons, not_or] at h
    rw [lines_cons, if_neg (Ne.symm h.1)]
    cases body with
    | nil => rfl
    | cons c body => rw [ih h.2 (List.cons_ne_nil _ _)]

/-- Lines that are put together are found again. -/
theorem lines_flatMap_newline {α : Type} (body : α → Bytes) {items : List α}
    (h : ∀ item ∈ items, newline ∉ body item) :
    lines (items.flatMap fun item => body item ++ [newline]) =
      items.map fun item => body item ++ [newline] := by
  induction items with
  | nil => rfl
  | cons item items ih =>
    rw [List.forall_mem_cons] at h
    rw [List.flatMap_cons, List.append_assoc, List.singleton_append, lines_append_newline h.1,
      ih h.2, List.map_cons]

/-- The text consists of whole lines. -/
def EndsLine (text : Bytes) : Prop := text = [] ∨ text.getLast? = some newline

theorem EndsLine.of_notMem {body : Bytes} (h : EndsLine body) (hbody : newline ∉ body) :
    body = [] :=
  h.resolve_right fun hlast => hbody (List.mem_of_getLast? hlast)

theorem EndsLine.behind {body rest : Bytes} (h : EndsLine (body ++ newline :: rest)) :
    EndsLine rest := by
  cases rest with
  | nil => exact .inl rfl
  | cons b rest =>
    rcases h with h | h
    · simp at h
    · exact .inr (by simpa [List.getLast?_append] using h)

/-! ## Lines by position -/

/-- A line starts here: at the start of the text or right behind a newline. -/
def StartsLine (text : Bytes) (start : Nat) : Prop :=
  start = 0 ∨ ∃ i, start = i + 1 ∧ text[i]? = some newline

/-- The text from a position up to the end of the line, without the newline. -/
def lineFrom (text : Bytes) (start : Nat) : Bytes := (text.drop start).takeWhile (· != newline)

theorem startsLine_of_notMem {body : Bytes} (h : newline ∉ body) {start : Nat} :
    StartsLine body start ↔ start = 0 := by
  refine or_iff_left ?_
  rintro ⟨i, -, hi⟩
  exact h (List.mem_of_getElem? hi)

theorem startsLine_append_newline {body : Bytes} (h : newline ∉ body) {rest : Bytes} {start : Nat} :
    StartsLine (body ++ newline :: rest) start ↔
      start = 0 ∨ ∃ s, start = body.length + 1 + s ∧ StartsLine rest s := by
  refine or_congr_right ⟨?_, ?_⟩
  · rintro ⟨i, rfl, hi⟩
    rcases Nat.lt_trichotomy i body.length with hlt | rfl | hlt
    · rw [List.getElem?_append_left hlt] at hi
      exact absurd (List.mem_of_getElem? hi) h
    · exact ⟨0, rfl, .inl rfl⟩
    · obtain ⟨j, rfl⟩ : ∃ j, i = body.length + (j + 1) := ⟨i - body.length - 1, by omega⟩
      rw [List.getElem?_append_right (by omega), Nat.add_sub_cancel_left,
        List.getElem?_cons_succ] at hi
      exact ⟨j + 1, by omega, .inr ⟨j, rfl, hi⟩⟩
  · rintro ⟨s, rfl, rfl | ⟨i, rfl, hi⟩⟩
    · exact ⟨body.length, rfl, by simp⟩
    · refine ⟨body.length + (i + 1), by omega, ?_⟩
      rw [List.getElem?_append_right (by omega), Nat.add_sub_cancel_left, List.getElem?_cons_succ]
      exact hi

theorem ne_newline_of_notMem {body : Bytes} (h : newline ∉ body) :
    ∀ b ∈ body, (b != newline) = true := by
  intro b hb
  rw [bne_iff_ne]
  rintro rfl
  exact h hb

theorem lineFrom_zero_of_notMem {body : Bytes} (h : newline ∉ body) : lineFrom body 0 = body := by
  rw [lineFrom, List.drop_zero]
  exact List.takeWhile_eq_self_iff.2 (ne_newline_of_notMem h)

theorem lineFrom_zero_append_newline {body : Bytes} (h : newline ∉ body) (rest : Bytes) :
    lineFrom (body ++ newline :: rest) 0 = body := by
  rw [lineFrom, List.drop_zero, List.takeWhile_append_of_pos (ne_newline_of_notMem h),
    List.takeWhile_cons_of_neg (by simp), List.append_nil]

theorem lineFrom_append_newline (body rest : Bytes) (s : Nat) :
    lineFrom (body ++ newline :: rest) (body.length + 1 + s) = lineFrom rest s := by
  rw [lineFrom, lineFrom, Nat.add_assoc, Nat.add_comm 1, List.drop_length_add_append,
    List.drop_succ_cons]

end Disasm6502
