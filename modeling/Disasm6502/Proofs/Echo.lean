import Disasm6502.Proofs.Highlighting
import Disasm6502.Proofs.LogGroups

/-!
What is echoed, and what echoing leaves alone. A call writes to the stream what its message shows
under the present echo (`stream_call`), so a stream that is echoed to for some calls has received
their transcript as far as it had room (`stream_calls`). The other direction is that nothing comes
back from the stream: without the echo (`unechoed`) the same calls do the same to the log.
-/

namespace Disasm6502

/-! ## Sinks that look the same -/

/-- The sinks hold the same bytes and have the same room left. -/
structure Sink.Alike (s t : Sink) : Prop where
  written_eq : s.written = t.written
  room_eq : s.room = t.room

namespace Sink.Alike

variable {s t u : Sink}

theorem trans (h : s.Alike t) (h' : t.Alike u) : s.Alike u :=
  ⟨h.written_eq.trans h'.written_eq, h.room_eq.trans h'.room_eq⟩

theorem write (h : s.Alike t) (bytes : Bytes) : (s.write bytes).Alike (t.write bytes) := by
  have haccepted : s.accepted bytes = t.accepted bytes := by
    rw [Sink.accepted, Sink.accepted, h.room_eq]
  refine ⟨?_, ?_⟩
  · rw [written_write, written_write, h.written_eq, haccepted]
  · rw [room_write, room_write, h.room_eq]

theorem write_nil (s : Sink) : s.Alike (s.write []) := by
  refine ⟨?_, ?_⟩
  · cases h : s.room <;> simp [Sink.accepted, h]
  · cases h : s.room <;> simp [h]

theorem write_write (s : Sink) (a b : Bytes) : ((s.write a).write b).Alike (s.write (a ++ b)) :=
  ⟨written_write_write s a b, room_write_write s a b⟩

end Sink.Alike

/-! ## Lines of messages -/

namespace Message

theorem newline_notMem_clean (m : Message) :
    newline ∉ m.clean.tag ++ utf8 ": " ++ m.clean.detail := by
  have hsep : newline ∉ utf8 ": " := by decide
  simp only [List.mem_append, m.newline_notMem_tag_clean, hsep, m.newline_notMem_detail_clean,
    or_self, not_false_eq_true]

theorem endsLine_line (m : Message) : EndsLine m.line := .inr List.getLast?_concat

/-- Every message is echoed on a line of its own. -/
theorem lines_flatMap_line (ms : List Message) :
    lines (ms.flatMap fun m => m.clean.line) = ms.map fun m => m.clean.line :=
  lines_flatMap_newline (fun m : Message => m.clean.tag ++ utf8 ": " ++ m.clean.detail) fun m _ =>
    m.newline_notMem_clean

theorem highlight_text_line (m : Message) :
    Highlight.text m.clean.line = Highlight.line m.clean.line :=
  Highlight.text_concat_newline m.newline_notMem_clean

/-- The tag that is found on the line of a message: all of its tag, or what precedes the first colon
and space in it. -/
theorem highlighted_tag (m : Message) :
    ∃ tag rest, m.clean.line = tag ++ rest ∧
      Highlight.line m.clean.line = Highlight.boldPen ++ tag ++ Highlight.normalPen ++ rest ∧
      (tag = m.clean.tag ↔ ¬ utf8 ": " <:+: m.clean.tag) ∧
      (utf8 ": " <:+: m.clean.tag → Highlight.IsTagOf tag m.clean.tag) := by
  -- The line has a colon and space behind the tag; only one inside the tag can come before it.
  rcases Highlight.line_cases m.clean.tag with h | ⟨tag, more, htag, h⟩
  · refine ⟨m.clean.tag, utf8 ": " ++ (m.clean.detail ++ [newline]), ?_, ?_, ?_, ?_⟩
    · simp only [Message.line, List.append_assoc]
    · rw [Message.line, List.append_assoc, Highlight.line_append h]
    · exact iff_of_true rfl h
    · exact fun hsep => absurd hsep h
  · have hline : m.clean.line =
        tag ++ utf8 ": " ++ (more ++ utf8 ": " ++ m.clean.detail ++ [newline]) := by
      rw [Message.line, htag]
      simp only [List.append_assoc]
    have hsep : utf8 ": " <:+: m.clean.tag := ⟨tag, more, htag.symm⟩
    refine ⟨tag, utf8 ": " ++ (more ++ utf8 ": " ++ m.clean.detail ++ [newline]), ?_, ?_, ?_, ?_⟩
    · rw [hline, List.append_assoc]
    · rw [hline, Highlight.line_append h]
    · refine iff_of_false ?_ (not_not_intro hsep)
      rintro rfl
      exact h hsep
    · exact fun _ => ⟨⟨more, htag.symm⟩, h⟩

end Message

/-! ## What a stream receives -/

/-- What a message adds to the stream. -/
def Echo.shown : Echo → Message → Bytes
  | off, _ => []
  | plain, m => m.clean.line
  | highlighted, m => Highlight.text m.clean.line

def Call.isSetEcho {α : Type} : Call α → Bool
  | setEcho _ _ => true
  | log _ | logf _ _ _ | clear | write | tail _ => false

def Call.showsLog {α : Type} : Call α → Bool
  | write | tail _ => true
  | log _ | logf _ _ _ | clear | setEcho _ _ => false

namespace Recorder

variable {α : Type} (format : Formatter α)

theorem echoed_alike (r : Recorder) (m : Message) :
    (r.echoed m).Alike (r.stream.write (r.echo.shown m)) := by
  cases h : r.echo with
  | off =>
    rw [echoed, h]
    exact .write_nil r.stream
  | plain =>
    rw [echoed, h]
    exact ⟨rfl, rfl⟩
  | highlighted =>
    rw [echoed, h]
    exact ⟨rfl, rfl⟩

theorem echo_call (r : Recorder) {c : Call α} (hc : c.isSetEcho = false) :
    (r.call format c).2.echo = r.echo := by
  cases c with
  | setEcho echo stream => cases hc
  | _ => rfl

/-- One call: its message, if it has one, is written as the echo shows it. -/
theorem stream_call (r : Recorder) {c : Call α} (hc : c.isSetEcho = false) :
    (r.call format c).2.stream.Alike
      (r.stream.write ((c.message? format).toList.flatMap r.echo.shown)) := by
  cases c with
  | log m =>
    rw [Call.message?, Option.toList_some, List.flatMap_singleton]
    exact r.echoed_alike m
  | logf tag template values =>
    rw [Call.message?, Option.toList_some, List.flatMap_singleton]
    exact r.echoed_alike _
  | setEcho echo stream => cases hc
  | clear | write | tail n => exact .write_nil r.stream

/-- Some calls: their messages are written one behind the other. -/
theorem stream_calls (r : Recorder) {cs : List (Call α)}
    (hcs : ∀ c ∈ cs, c.isSetEcho = false) :
    (r.calls format cs).stream.Alike
      (r.stream.write ((cs.filterMap (Call.message? format)).flatMap r.echo.shown)) := by
  induction cs generalizing r with
  | nil => exact .write_nil r.stream
  | cons c cs ih =>
    rw [List.forall_mem_cons] at hcs
    -- The first call leaves the echo as it is, so the rest is shown in the same way.
    have hrest := ih (r.call format c).2 hcs.2
    rw [r.echo_call format hcs.1] at hrest
    have hshown : ((c :: cs).filterMap (Call.message? format)).flatMap r.echo.shown =
        (c.message? format).toList.flatMap r.echo.shown ++
          (cs.filterMap (Call.message? format)).flatMap r.echo.shown := by
      cases hm : c.message? format <;> simp [hm]
    rw [hshown]
    exact hrest.trans (((r.stream_call format hcs.1).write _).trans (.write_write _ _ _))

theorem written_calls_setEcho (r : Recorder) (echo : Echo) (stream : Sink) {cs : List (Call α)}
    (hcs : ∀ c ∈ cs, c.isSetEcho = false) :
    ((r.setEcho echo stream).calls format cs).stream.written =
      stream.written ++
        stream.accepted ((cs.filterMap (Call.message? format)).flatMap echo.shown) := by
  rw [((r.setEcho echo stream).stream_calls format hcs).written_eq, Sink.written_write]
  rfl

/-! ## The log without the echo -/

/-- The recorder with the same log that echoes nothing. -/
def unechoed (r : Recorder) : Recorder := ⟨r.log, .off, .unlimited⟩

/-- What a call writes and what it does to the log have nothing to do with the echo. -/
theorem call_unechoed (r : Recorder) {c : Call α} (hc : c.isSetEcho = false) :
    r.unechoed.call format c = ((r.call format c).1, (r.call format c).2.unechoed) := by
  cases c with
  | setEcho echo stream => cases hc
  | _ => rfl

/-- What the calls that show the log write to the writers they are given. -/
def outputs (r : Recorder) : List (Call α) → List Bytes
  | [] => []
  | c :: cs =>
    (if c.showsLog then [(r.call format c).1] else []) ++ outputs (r.call format c).2 cs

/-- Without the calls that set the echo, and without an echo, the log takes the same course. -/
theorem calls_unechoed (r : Recorder) (cs : List (Call α)) :
    r.unechoed.calls format (cs.filter fun c => !c.isSetEcho) = (r.calls format cs).unechoed ∧
      r.unechoed.outputs format (cs.filter fun c => !c.isSetEcho) = r.outputs format cs := by
  induction cs generalizing r with
  | nil => exact ⟨rfl, rfl⟩
  | cons c cs ih =>
    have hrest := ih (r.call format c).2
    cases hc : c.isSetEcho with
    | true =>
      -- Setting the echo changes nothing that is compared.
      cases c with
      | setEcho echo stream => exact hrest
      | _ => cases hc
    | false =>
      rw [List.filter_cons_of_pos (by simp [hc]), outputs, outputs, r.call_unechoed format hc]
      refine ⟨?_, ?_⟩
      · rw [calls, List.foldl_cons, r.call_unechoed format hc]
        exact hrest.1
      · rw [hrest.2]

/-! ## The transcript -/

/-- A plain echo is the transcript of the messages, one line each, as far as the stream has room for
it. The echo has no influence on the log, nor on what the calls show of it. That covers streams of
any behaviour, because one that changes between two calls may as well be set anew there. -/
theorem echo_is_transcript :
    (∀ (r : Recorder) (cs : List (Call α)), (∀ c ∈ cs, c.isSetEcho = false) →
      let shown := (cs.filterMap (Call.message? format)).map fun m =>
        m.clean.tag ++ utf8 ": " ++ m.clean.detail ++ [newline]
      ((r.setEcho .plain .unlimited).calls format cs).stream.written = shown.flatten ∧
        lines shown.flatten = shown ∧
        ∀ k, ((r.setEcho .plain (.limited k)).calls format cs).stream.written =
          shown.flatten.take k) ∧
      ∀ (r r' : Recorder) (cs cs' : List (Call α)), r.log = r'.log →
        cs.filter (fun c => !c.isSetEcho) = cs'.filter (fun c => !c.isSetEcho) →
        (r.calls format cs).log = (r'.calls format cs').log ∧
          r.outputs format cs = r'.outputs format cs' := by
  constructor
  · intro r cs hcs shown
    have hshown : (cs.filterMap (Call.message? format)).flatMap Echo.plain.shown =
        shown.flatten := List.flatMap_def
    refine ⟨?_, ?_, ?_⟩
    · rw [written_calls_setEcho format r _ _ hcs, hshown]
      rfl
    · exact hshown ▸ Message.lines_flatMap_line _
    · intro k
      rw [written_calls_setEcho format r _ _ hcs, hshown]
      rfl
  · intro r r' cs cs' hlog hcs
    have hstart : r.unechoed = r'.unechoed := by
      rw [unechoed, unechoed, hlog]
    obtain ⟨hcalls, houtputs⟩ := r.calls_unechoed format cs
    obtain ⟨hcalls', houtputs'⟩ := r'.calls_unechoed format cs'
    rw [hstart, hcs] at hcalls houtputs
    refine ⟨?_, ?_⟩
    · have hafter : (r.calls format cs).unechoed = (r'.calls format cs').unechoed :=
        hcalls.symm.trans hcalls'
      exact (Recorder.mk.inj hafter).1
    · exact houtputs.symm.trans houtputs'

/-- Fill the numbers in, one for each `%d`. -/
def fillDecimals : List Char → List Nat → Bytes
  | '%' :: 'd' :: rest, n :: ns => Numeral.decimal n ++ fillDecimals rest ns
  | c :: rest, ns => utf8 (String.singleton c) ++ fillDecimals rest ns
  | [], _ => []

/-- A formatter for numbers. -/
def decimalFormat : Formatter Nat := fun template => fillDecimals template.toList

/-- Two messages that count as one entry, one after the log is cleared. -/
def countedCalls : List (Call Nat) :=
  [.log ⟨utf8 "a", utf8 "b"⟩, .log ⟨utf8 "a\n", utf8 "b"⟩, .clear, .logf (utf8 "c") "%d" [7]]

theorem echo_is_transcript_countedCalls :
    ((silent.setEcho .plain .unlimited).calls decimalFormat countedCalls).stream.written =
        utf8 "a: b\na: b\nc: 7\n" ∧
      ((silent.setEcho .plain (.limited 8)).calls decimalFormat countedCalls).stream.written =
        utf8 "a: b\na: " ∧
      silent.outputs decimalFormat (.setEcho .plain (.limited 8) :: countedCalls ++ [.write]) =
        silent.outputs decimalFormat
          (countedCalls ++ [.setEcho .highlighted .unlimited, .write]) := by
  obtain ⟨hecho, hlog⟩ := echo_is_transcript decimalFormat
  obtain ⟨hall, -, hfirst⟩ := hecho silent countedCalls (by decide)
  refine ⟨?_, ?_, (hlog silent silent _ _ rfl (by decide)).2⟩
  · rw [hall]
    decide
  · rw [hfirst]
    decide

/-! ## The highlighted transcript -/

/-- Echoing highlighted messages one by one gives the plain transcript highlighted as a whole, and
on the line of each message its tag stands between the pens, up to a colon and space in it. -/
theorem highlighted_echo_is_transcript (r : Recorder) (cs : List (Call α))
    (hcs : ∀ c ∈ cs, c.isSetEcho = false) :
    let messages := cs.filterMap (Call.message? format)
    let plain := ((r.setEcho .plain .unlimited).calls format cs).stream.written
    let shown := ((r.setEcho .highlighted .unlimited).calls format cs).stream.written
    shown = (Highlight.write .unlimited plain).2.written ∧
      shown = messages.flatMap (fun m => Highlight.line m.clean.line) ∧
      ∀ m ∈ messages, ∃ tag rest, m.clean.line = tag ++ rest ∧
        Highlight.line m.clean.line = Highlight.boldPen ++ tag ++ Highlight.normalPen ++ rest ∧
        (tag = m.clean.tag ↔ ¬ utf8 ": " <:+: m.clean.tag) ∧
        (utf8 ": " <:+: m.clean.tag → Highlight.IsTagOf tag m.clean.tag) := by
  intro messages plain shown
  have hplain : plain = (messages.map fun m => m.clean.line).flatten := by
    rw [← List.flatMap_def]
    exact written_calls_setEcho format r .plain .unlimited hcs
  have hshown : shown = messages.flatMap fun m => Highlight.text m.clean.line :=
    written_calls_setEcho format r .highlighted .unlimited hcs
  have hends : ∀ line ∈ messages.map fun m => m.clean.line, EndsLine line := by
    intro line hline
    obtain ⟨m, -, rfl⟩ := List.mem_map.1 hline
    exact m.clean.endsLine_line
  refine ⟨?_, ?_, fun m _ => m.highlighted_tag⟩
  · rw [Highlight.written_write_unlimited, hplain, Highlight.text_flatten hends, List.flatMap_map,
      hshown]
  · rw [hshown]
    simp only [Message.highlight_text_line]

/-- A tag that ends in a colon, one that has a colon and space without its newline, and an empty
one. -/
def colonCalls : List (Call Nat) :=
  [.log ⟨utf8 "a:", utf8 "x: y"⟩, .log ⟨utf8 "n:\n o", utf8 "z"⟩, .log ⟨[], utf8 "z"⟩]

theorem highlighted_echo_is_transcript_colonCalls :
    ((silent.setEcho .highlighted .unlimited).calls decimalFormat colonCalls).stream.written =
        (Highlight.write .unlimited (utf8 "a:: x: y\nn: o: z\n: z\n")).2.written ∧
      (∃ rest, Highlight.line (utf8 "a:: x: y\n") =
        Highlight.boldPen ++ utf8 "a:" ++ Highlight.normalPen ++ rest) ∧
      ∃ tag rest, Highlight.line (utf8 "n: o: z\n") =
        Highlight.boldPen ++ tag ++ Highlight.normalPen ++ rest ∧
        Highlight.IsTagOf tag (utf8 "n: o") := by
  obtain ⟨hshown, -, htags⟩ :=
    highlighted_echo_is_transcript decimalFormat silent colonCalls (by decide)
  obtain ⟨tag, rest, -, hline, hwhole, -⟩ := htags ⟨utf8 "a:", utf8 "x: y"⟩ (by decide)
  obtain ⟨tag', rest', -, hline', -, hpart⟩ := htags ⟨utf8 "n:\n o", utf8 "z"⟩ (by decide)
  have hplain :
      ((silent.setEcho .plain .unlimited).calls decimalFormat colonCalls).stream.written =
        utf8 "a:: x: y\nn: o: z\n: z\n" := by decide
  rw [hwhole.2 (by decide)] at hline
  exact ⟨hplain ▸ hshown, ⟨rest, hline⟩, tag', rest', hline', hpart (by decide)⟩

end Recorder

end Disasm6502
