import Mathlib.Data.List.Infix
import Disasm6502.Log.Highlight
import Disasm6502.Proofs.TextLines

/-!
What highlighting does to a text. `cutTag?` finds the first colon and space of a line
(`cutTag?_eq_some_iff`), so a line is left as it is or has its tag put between two pens
(`line_of_not_isInfix`, `line_append`). A newline at its end makes no difference
(`line_append_newline`), and a text is highlighted line by line (`text_append_newline`). Two readers
of highlighted text say what was added: `erase` takes the pens out and `stretches` tells what stands
between them.
-/

namespace Disasm6502.Highlight

/-! ## The first colon and space -/

/-- The part of a line before its first colon and space. -/
def IsTagOf (tag line : Bytes) : Prop := tag ++ utf8 ": " <+: line ∧ ¬ utf8 ": " <:+: tag

theorem colonSpace_eq : utf8 ": " = [0x3A, 0x20] := by decide

theorem colonSpace_isPrefix_cons {b : UInt8} {rest : Bytes} :
    utf8 ": " <+: b :: rest ↔ b = 0x3A ∧ rest.head? = some 0x20 := by
  rw [colonSpace_eq]
  cases rest with
  | nil => simp
  | cons c rest => simp [List.cons_prefix_cons, eq_comm]

/-- Only a space can end a colon and space. -/
theorem colonSpace_isInfix_concat {s : Bytes} {b : UInt8} (hb : b ≠ 0x20) :
    utf8 ": " <:+: s ++ [b] ↔ utf8 ": " <:+: s := by
  rw [List.infix_concat_iff]
  refine or_iff_right ?_
  rw [List.suffix_concat_iff, colonSpace_eq]
  rintro (h | ⟨t, ht, -⟩)
  · cases h
  · have hlast := congrArg List.getLast? ht
    rw [List.getLast?_concat] at hlast
    exact hb (Option.some.inj hlast).symm

theorem cutTag?_eq_none_iff {line : Bytes} : cutTag? line = none ↔ ¬ utf8 ": " <:+: line := by
  induction line with
  | nil => simp [colonSpace_eq]
  | cons b rest ih =>
    rw [cutTag?_cons, List.infix_cons_iff, not_or, colonSpace_isPrefix_cons, ← ih]
    split
    · rename_i hb
      simp [hb]
    · rename_i hb
      simp [hb]

/-- A colon and space right behind a tag adds none that starts in the tag. -/
theorem head?_append_colonSpace (tag detail : Bytes) :
    (tag ++ utf8 ": " ++ detail).head? = some 0x20 ↔ tag.head? = some 0x20 := by
  cases tag with
  | nil => simp [colonSpace_eq]
  | cons b tag => rfl

theorem colonSpace_not_isInfix_of_cutTag? {line tag detail : Bytes}
    (h : cutTag? line = some (tag, detail)) : ¬ utf8 ": " <:+: tag := by
  induction line generalizing tag with
  | nil => simp at h
  | cons b rest ih =>
    rw [cutTag?_cons] at h
    split at h
    · cases h
      decide
    · rename_i hb
      obtain ⟨⟨t, d⟩, ht, heq⟩ := Option.map_eq_some_iff.1 h
      cases heq
      rw [eq_of_cutTag? ht, head?_append_colonSpace, ← colonSpace_isPrefix_cons] at hb
      rw [List.infix_cons_iff, not_or]
      exact ⟨hb, ih ht⟩

theorem cutTag?_append {tag : Bytes} (h : ¬ utf8 ": " <:+: tag) (detail : Bytes) :
    cutTag? (tag ++ utf8 ": " ++ detail) = some (tag, detail) := by
  induction tag with
  | nil => rfl
  | cons b tag ih =>
    rw [List.infix_cons_iff, not_or, colonSpace_isPrefix_cons,
      ← head?_append_colonSpace tag detail] at h
    rw [List.cons_append, List.cons_append, cutTag?_cons, if_neg h.1, ih h.2]
    rfl

/-- The cut is made at the first place where there is one to make. -/
theorem cutTag?_eq_some_iff {line tag detail : Bytes} :
    cutTag? line = some (tag, detail) ↔
      line = tag ++ utf8 ": " ++ detail ∧ ¬ utf8 ": " <:+: tag := by
  constructor
  · intro h
    exact ⟨eq_of_cutTag? h, colonSpace_not_isInfix_of_cutTag? h⟩
  · rintro ⟨rfl, h⟩
    exact cutTag?_append h detail

theorem exists_isTagOf_iff {line : Bytes} : (∃ tag, IsTagOf tag line) ↔ utf8 ": " <:+: line := by
  constructor
  · rintro ⟨tag, ⟨rest, rfl⟩, -⟩
    exact ⟨tag, rest, rfl⟩
  · intro h
    cases hcut : cutTag? line with
    | none => exact absurd h (cutTag?_eq_none_iff.1 hcut)
    | some cut =>
      obtain ⟨hline, hfirst⟩ := cutTag?_eq_some_iff.1 hcut
      exact ⟨cut.1, ⟨cut.2, hline.symm⟩, hfirst⟩

theorem IsTagOf.unique {tag tag' line : Bytes} (h : IsTagOf tag line) (h' : IsTagOf tag' line) :
    tag = tag' := by
  obtain ⟨⟨detail, hline⟩, hfirst⟩ := h
  obtain ⟨⟨detail', hline'⟩, hfirst'⟩ := h'
  have hcut := cutTag?_append hfirst detail
  rw [hline, ← hline', cutTag?_append hfirst' detail'] at hcut
  exact (congrArg Prod.fst (Option.some.inj hcut)).symm

/-! ## One line -/

theorem line_of_not_isInfix {l : Bytes} (h : ¬ utf8 ": " <:+: l) : line l = l := by
  rw [line, cutTag?_eq_none_iff.2 h]

theorem line_append {tag : Bytes} (h : ¬ utf8 ": " <:+: tag) (detail : Bytes) :
    line (tag ++ utf8 ": " ++ detail) =
      boldPen ++ tag ++ normalPen ++ (utf8 ": " ++ detail) := by
  rw [line, cutTag?_append h]
  exact List.append_assoc _ _ _

/-- A line has no colon and space, or it is cut at the first. -/
theorem line_cases (l : Bytes) :
    ¬ utf8 ": " <:+: l ∨ ∃ tag detail, l = tag ++ utf8 ": " ++ detail ∧ ¬ utf8 ": " <:+: tag := by
  by_cases h : utf8 ": " <:+: l
  · obtain ⟨tag, ⟨detail, rfl⟩, hfirst⟩ := exists_isTagOf_iff.2 h
    exact .inr ⟨tag, detail, rfl, hfirst⟩
  · exact .inl h

theorem line_append_newline (l : Bytes) : line (l ++ [newline]) = line l ++ [newline] := by
  rcases line_cases l with h | ⟨tag, detail, rfl, h⟩
  · have hends := (colonSpace_isInfix_concat (s := l) (b := newline) (by decide)).not.2 h
    rw [line_of_not_isInfix h, line_of_not_isInfix hends]
  · rw [List.append_assoc, line_append h, line_append h]
    simp only [List.append_assoc]

theorem length_line (l : Bytes) :
    (line l).length = l.length + if utf8 ": " <:+: l then 8 else 0 := by
  rcases line_cases l with h | ⟨tag, detail, rfl, h⟩
  · rw [line_of_not_isInfix h, if_neg h, Nat.add_zero]
  · have hpens : boldPen.length = 4 ∧ normalPen.length = 4 := by decide
    rw [line_append h, if_pos (List.infix_append _ _ _)]
    simp only [List.length_append, hpens]
    omega

/-! ## Whole texts -/

theorem text_of_notMem {body : Bytes} (h : newline ∉ body) : text body = line body := by
  by_cases hne : body = []
  · rw [hne]
    rfl
  · rw [text, lines_of_notMem h hne, List.flatMap_singleton]

theorem text_append_newline {body : Bytes} (h : newline ∉ body) (rest : Bytes) :
    text (body ++ newline :: rest) = line body ++ newline :: text rest := by
  rw [text, lines_append_newline h, List.flatMap_cons, line_append_newline, List.append_assoc]
  rfl

/-- Whole lines are highlighted without regard to what follows. -/
theorem text_append {p : Bytes} (h : EndsLine p) (q : Bytes) :
    text (p ++ q) = text p ++ text q := by
  induction p using line_induction with
  | last body hbody =>
    rw [h.of_notMem hbody]
    rfl
  | line body rest hbody ih =>
    rw [List.append_assoc, List.cons_append, text_append_newline hbody, ih h.behind,
      text_append_newline hbody, List.append_assoc, List.cons_append]

/-- Lines that are highlighted one by one are highlighted as a whole. -/
theorem text_flatten {parts : List Bytes} (h : ∀ p ∈ parts, EndsLine p) :
    text parts.flatten = parts.flatMap text := by
  induction parts with
  | nil => rfl
  | cons p parts ih =>
    rw [List.forall_mem_cons] at h
    rw [List.flatten_cons, text_append h.1, ih h.2, List.flatMap_cons]

/-- A single line is highlighted as such. -/
theorem text_concat_newline {body : Bytes} (h : newline ∉ body) :
    text (body ++ [newline]) = line (body ++ [newline]) := by
  rw [text_append_newline h, line_append_newline]
  rfl

theorem length_text (p : Bytes) :
    (text p).length = p.length + 8 * (p.splitOn newline).countP fun l => utf8 ": " <:+: l := by
  induction p using line_induction with
  | last body hbody =>
    rw [text_of_notMem hbody, length_line, List.splitOn_eq_singleton hbody, List.countP_singleton]
    by_cases h : utf8 ": " <:+: body <;> simp [h]
  | line body rest hbody ih =>
    rw [text_append_newline hbody, List.length_append, List.length_cons, length_line, ih,
      List.splitOn_append_cons_self_of_not_mem hbody, List.countP_cons, List.length_append,
      List.length_cons]
    by_cases h : utf8 ": " <:+: body
    · simp only [h, if_true, decide_true]
      omega
    · simp only [h, if_false, decide_false, Bool.false_eq_true]
      omega

/-! ## Reading highlighted text -/

/-- What a highlighted text consists of. -/
inductive Mark where
  | bold
  | normal
  | byte (b : UInt8)
  deriving DecidableEq, Repr

def Mark.byte? : Mark → Option UInt8
  | bold | normal => none
  | byte b => some b

/-- The pens of a text and the bytes between them, in order. -/
def marks : Bytes → List Mark
  | 0x1B :: 0x5B :: 0x31 :: 0x6D :: rest => .bold :: marks rest
  | 0x1B :: 0x5B :: 0x30 :: 0x6D :: rest => .normal :: marks rest
  | b :: rest => .byte b :: marks rest
  | [] => []

/-- A text without its pens. -/
def erase (shown : Bytes) : Bytes := (marks shown).filterMap Mark.byte?

/-- The stretches between a bold pen and the next normal one, where `pos` bytes were read before and
the stretch that is open began behind `opened` of them. One that is never closed goes on to the end
of the text. -/
def stretchesFrom (pos : Nat) (opened : Option Nat) : List Mark → List (Nat × Nat)
  | [] => opened.toList.map (·, pos)
  | .bold :: rest => stretchesFrom pos (some (opened.getD pos)) rest
  | .normal :: rest => opened.toList.map (·, pos) ++ stretchesFrom pos none rest
  | .byte _ :: rest => stretchesFrom (pos + 1) opened rest

/-- Where the highlighted stretches of a text start and stop, as positions in the text without its
pens. -/
def stretches (shown : Bytes) : List (Nat × Nat) := stretchesFrom 0 none (marks shown)

theorem marks_boldPen (rest : Bytes) : marks (boldPen ++ rest) = .bold :: marks rest := by
  have hpen : boldPen = [0x1B, 0x5B, 0x31, 0x6D] := by decide
  rw [hpen]
  simp [marks]

theorem marks_normalPen (rest : Bytes) : marks (normalPen ++ rest) = .normal :: marks rest := by
  have hpen : normalPen = [0x1B, 0x5B, 0x30, 0x6D] := by decide
  rw [hpen]
  simp [marks]

/-- Bytes that cannot start a pen are only bytes. -/
theorem marks_append {s : Bytes} (h : 0x1B ∉ s) (rest : Bytes) :
    marks (s ++ rest) = s.map .byte ++ marks rest := by
  induction s with
  | nil => rfl
  | cons b s ih =>
    rw [List.mem_cons, not_or] at h
    rw [List.cons_append, marks, ih h.2, List.map_cons, List.cons_append]
    · intro _ hb
      exact absurd hb.symm h.1
    · intro _ hb
      exact absurd hb.symm h.1

theorem marks_newline (rest : Bytes) : marks (newline :: rest) = .byte newline :: marks rest :=
  marks_append (s := [newline]) (by decide) rest

theorem marks_line_append {tag detail : Bytes} (h : 0x1B ∉ tag ++ utf8 ": " ++ detail)
    (hfirst : ¬ utf8 ": " <:+: tag) (rest : Bytes) :
    marks (line (tag ++ utf8 ": " ++ detail) ++ rest) =
      .bold :: (tag.map .byte ++ .normal :: ((utf8 ": " ++ detail).map .byte ++ marks rest)) := by
  rw [List.append_assoc, List.mem_append, not_or] at h
  rw [line_append hfirst, List.append_assoc, List.append_assoc, List.append_assoc, marks_boldPen,
    marks_append h.1, marks_normalPen, marks_append h.2]

/-! ### Without the pens -/

theorem filterMap_map_byte (s : Bytes) : (s.map Mark.byte).filterMap Mark.byte? = s := by
  rw [List.filterMap_map]
  exact List.filterMap_some

theorem erase_line {l : Bytes} (h : 0x1B ∉ l) (rest : Bytes) :
    erase (line l ++ rest) = l ++ erase rest := by
  rcases line_cases l with hsep | ⟨tag, detail, rfl, hsep⟩
  · rw [erase, line_of_not_isInfix hsep, marks_append h, List.filterMap_append, filterMap_map_byte,
      erase]
  · rw [erase, marks_line_append h hsep]
    simp only [List.filterMap_cons, Mark.byte?, List.filterMap_append, filterMap_map_byte, erase,
      List.append_assoc]

theorem erase_text {p : Bytes} (h : 0x1B ∉ p) : erase (text p) = p := by
  induction p using line_induction with
  | last body hbody =>
    have hline := erase_line h []
    rw [List.append_nil, ← text_of_notMem hbody] at hline
    exact hline.trans (List.append_nil _)
  | line body rest hbody ih =>
    rw [List.mem_append, not_or, List.mem_cons, not_or] at h
    have hrest : erase (newline :: text rest) = newline :: erase (text rest) := by
      rw [erase, marks_newline]
      rfl
    rw [text_append_newline hbody, erase_line h.1, hrest, ih h.2.2]

/-! ### Between the pens -/

theorem stretchesFrom_map_byte (pos : Nat) (opened : Option Nat) (s : Bytes) (rest : List Mark) :
    stretchesFrom pos opened (s.map .byte ++ rest) =
      stretchesFrom (pos + s.length) opened rest := by
  induction s generalizing pos with
  | nil => rfl
  | cons b s ih =>
    rw [List.map_cons, List.cons_append, stretchesFrom, ih, List.length_cons, Nat.add_assoc,
      Nat.add_comm 1]

/-- On a line there is one stretch, its tag, or none. -/
theorem mem_stretchesFrom_line {l : Bytes} (h : 0x1B ∉ l) (pos : Nat) (rest : Bytes)
    {x : Nat × Nat} :
    x ∈ stretchesFrom pos none (marks (line l ++ rest)) ↔
      (∃ tag, IsTagOf tag l ∧ x = (pos, pos + tag.length)) ∨
        x ∈ stretchesFrom (pos + l.length) none (marks rest) := by
  rcases line_cases l with hsep | ⟨tag, detail, rfl, hsep⟩
  · rw [line_of_not_isInfix hsep, marks_append h, stretchesFrom_map_byte]
    refine (or_iff_right ?_).symm
    rintro ⟨tag, htag, -⟩
    exact hsep (exists_isTagOf_iff.1 ⟨tag, htag⟩)
  · have htag : IsTagOf tag (tag ++ utf8 ": " ++ detail) := ⟨⟨detail, rfl⟩, hsep⟩
    have hone : (∃ t, IsTagOf t (tag ++ utf8 ": " ++ detail) ∧ x = (pos, pos + t.length)) ↔
        x = (pos, pos + tag.length) := by
      constructor
      · rintro ⟨t, ht, rfl⟩
        rw [ht.unique htag]
      · rintro rfl
        exact ⟨tag, htag, rfl⟩
    have hread : stretchesFrom pos none (marks (line (tag ++ utf8 ": " ++ detail) ++ rest)) =
        (pos, pos + tag.length) ::
          stretchesFrom (pos + (tag ++ utf8 ": " ++ detail).length) none (marks rest) := by
      rw [marks_line_append h hsep, stretchesFrom, stretchesFrom_map_byte, stretchesFrom,
        stretchesFrom_map_byte, Nat.add_assoc, ← List.length_append, List.append_assoc tag]
      rfl
    rw [hone, hread, List.mem_cons]

/-- The stretches of a highlighted text are the tags of its lines. -/
theorem mem_stretchesFrom_text {p : Bytes} (h : 0x1B ∉ p) (pos : Nat) {x : Nat × Nat} :
    x ∈ stretchesFrom pos none (marks (text p)) ↔
      ∃ start tag, StartsLine p start ∧ IsTagOf tag (lineFrom p start) ∧
        x = (pos + start, pos + start + tag.length) := by
  induction p using line_induction generalizing pos with
  | last body hbody =>
    have hline := mem_stretchesFrom_line h pos [] (x := x)
    rw [List.append_nil, ← text_of_notMem hbody] at hline
    rw [hline]
    simp [marks, stretchesFrom, startsLine_of_notMem hbody, lineFrom_zero_of_notMem hbody]
  | line body rest hbody ih =>
    rw [List.mem_append, not_or, List.mem_cons, not_or] at h
    rw [text_append_newline hbody, mem_stretchesFrom_line h.1, marks_newline, stretchesFrom,
      ih h.2.2]
    -- A line starts at the front, with `body` as its text, or where one starts behind the newline.
    constructor
    · rintro (⟨tag, htag, rfl⟩ | ⟨start, tag, hstart, htag, rfl⟩)
      · refine ⟨0, tag, .inl rfl, ?_, rfl⟩
        rw [lineFrom_zero_append_newline hbody]
        exact htag
      · refine ⟨body.length + 1 + start, tag, ?_, ?_, ?_⟩
        · exact (startsLine_append_newline hbody).2 (.inr ⟨start, rfl, hstart⟩)
        · rw [lineFrom_append_newline]
          exact htag
        · simp only [Nat.add_assoc]
    · rintro ⟨start, tag, hstart, htag, rfl⟩
      rcases (startsLine_append_newline hbody).1 hstart with rfl | ⟨s, rfl, hs⟩
      · rw [lineFrom_zero_append_newline hbody] at htag
        exact .inl ⟨tag, htag, rfl⟩
      · rw [lineFrom_append_newline] at htag
        exact .inr ⟨s, tag, hs, htag, by simp only [Nat.add_assoc]⟩

/-! ## The writer -/

theorem written_write_unlimited (p : Bytes) : (write .unlimited p).2.written = text p := by
  rw [write, Sink.written_write, Sink.written_unlimited]
  rfl

/-- A highlighting writer only adds pens, line by line: whole lines are sent as they would be alone,
each line with a colon and space costs two pens, and, in a text in which no pen can be mistaken,
nothing else is changed and the pens stand around the tags of the lines that have one. -/
theorem write_only_adds_pens (p : Bytes) :
    let color := fun plain => (write .unlimited plain).2.written
    (p = [] ∨ p.getLast? = some newline → ∀ q, color (p ++ q) = color p ++ color q) ∧
      (color p).length =
        p.length + 8 * (p.splitOn newline).countP (fun l => utf8 ": " <:+: l) ∧
      (0x1B ∉ p →
        erase (color p) = p ∧
        (∀ start stop, (start, stop) ∈ stretches (color p) ↔
          StartsLine p start ∧
            ∃ tag, IsTagOf tag (lineFrom p start) ∧ stop = start + tag.length) ∧
        ∀ start, StartsLine p start →
          ((∃ stop, (start, stop) ∈ stretches (color p)) ↔ utf8 ": " <:+: lineFrom p start)) := by
  intro color
  have hcolor : color = text := funext written_write_unlimited
  have hmem (h : 0x1B ∉ p) (start stop : Nat) : (start, stop) ∈ stretches (text p) ↔
      StartsLine p start ∧
        ∃ tag, IsTagOf tag (lineFrom p start) ∧ stop = start + tag.length := by
    rw [stretches, mem_stretchesFrom_text h]
    constructor
    · rintro ⟨s, tag, hs, htag, heq⟩
      rw [Nat.zero_add, Prod.mk.injEq] at heq
      obtain ⟨rfl, rfl⟩ := heq
      exact ⟨hs, tag, htag, rfl⟩
    · rintro ⟨hs, tag, htag, rfl⟩
      exact ⟨start, tag, hs, htag, by rw [Nat.zero_add]⟩
  rw [hcolor]
  refine ⟨fun h q => text_append h q, length_text p, fun h => ⟨erase_text h, hmem h, ?_⟩⟩
  intro start hstart
  rw [← exists_isTagOf_iff]
  constructor
  · rintro ⟨stop, hstop⟩
    obtain ⟨-, tag, htag, -⟩ := (hmem h start stop).1 hstop
    exact ⟨tag, htag⟩
  · rintro ⟨tag, htag⟩
    exact ⟨start + tag.length, (hmem h _ _).2 ⟨hstart, tag, htag, rfl⟩⟩

/-- Two tags, of which one is empty, between them a colon at the end of a line with a space at the
start of the next. -/
def colonLines : Bytes := utf8 "a: b: c\n:\n d\n: e\n"

theorem write_only_adds_pens_colonLines :
    let color := fun plain => (write .unlimited plain).2.written
    color (colonLines ++ utf8 "f: g") = color colonLines ++ color (utf8 "f: g") ∧
      (color colonLines).length = colonLines.length + 16 ∧ erase (color colonLines) = colonLines ∧
      (0, 1) ∈ stretches (color colonLines) ∧ (13, 13) ∈ stretches (color colonLines) ∧
      ¬ ∃ stop, (8, stop) ∈ stretches (color colonLines) := by
  obtain ⟨happend, hlength, hpens⟩ := write_only_adds_pens colonLines
  obtain ⟨herase, hmem, hiff⟩ := hpens (by decide)
  refine ⟨happend (.inr (by decide)) _, ?_, herase, ?_, ?_, ?_⟩
  · rw [hlength]
    decide
  · exact (hmem 0 1).2 ⟨.inl rfl, utf8 "a", ⟨by decide, by decide⟩, by decide⟩
  · exact (hmem 13 13).2 ⟨.inr ⟨12, rfl, by decide⟩, [], ⟨by decide, by decide⟩, rfl⟩
  · rw [hiff 8 (.inr ⟨7, rfl, by decide⟩)]
    decide

end Disasm6502.Highlight
