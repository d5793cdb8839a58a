import Disasm6502.Proofs.DecoderRun
import Disasm6502.Proofs.ImageSections
import Disasm6502.Proofs.LogGroups
import Disasm6502.Proofs.Numeral
import Disasm6502.Proofs.RunCourse

/-!
What a run leaves in the log. A run logs few messages and no two in a row are equal
(`Progress.isChain_messages`), so none is counted with another and none is dropped. What they say is
known from how far the run came: `Progress.entries` spells it out.
-/

namespace Disasm6502

/-! ## The texts -/

namespace Header

theorem newline_notMem_kib (size : Nat) : newline ∉ kib size := by
  rw [kib, List.mem_append, not_or]
  exact ⟨Numeral.notMem_decimal (by decide) _, by decide⟩

theorem newline_notMem_text (h : Header) : newline ∉ h.text := by
  have hversion : newline ∉ utf8 h.version.name := by cases h.version <;> decide
  have harrangement : newline ∉ utf8 h.arrangement.name := by cases h.arrangement <;> decide
  have htv : newline ∉ utf8 h.tv.name := by cases h.tv <;> decide
  have hbool (b : Bool) : newline ∉ utf8 (boolName b) := by cases b <;> decide
  have hmapper : newline ∉ Numeral.decimal h.mapper.toNat := Numeral.notMem_decimal (by decide) _
  unfold text
  simp +decide only [List.mem_append, hversion, harrangement, htv, hbool, hmapper,
    newline_notMem_kib, or_self, not_false_eq_true]

theorem comma_mem_text (h : Header) : 0x2C ∈ h.text := by
  have hcomma : 0x2C ∈ utf8 ", mapper " := by decide
  unfold text
  simp only [List.mem_append, hcomma, true_or, or_true]

end Header

namespace Image

/-- What is logged about an image and the data it was read from. -/
def logEntries (data : Bytes) (i : Image) : List Entry :=
  let unused := data.length - (16 + i.trainer.length + i.prg.length + i.chr.length)
  ⟨⟨utf8 "cartridge", i.header.text⟩, 0⟩ ::
    if 0 < unused then
      [⟨⟨utf8 "cartridge", Numeral.decimal unused ++ utf8 " trailing bytes ignored"⟩, 0⟩]
    else []

/-- Header, sections and trailing bytes are all of the data. -/
theorem length_eq_of_parse {data : Bytes} {i : Image} (h : parse data = .ok i) :
    data.length = 16 + i.trainer.length + i.prg.length + i.chr.length + i.trailing := by
  obtain ⟨hheader, hsections⟩ := parse_eq_ok_iff.1 h
  obtain ⟨hbyteSize, -, -⟩ := Header.parse_eq_ok_iff.1 hheader
  obtain ⟨extra, hdrop, hextra⟩ := hsections.split
  have hlength := congrArg List.length hdrop
  simp only [List.length_drop, List.length_append] at hlength
  rw [Header.byteSize] at hbyteSize hlength
  omega

theorem trailing_eq {data : Bytes} {i : Image} (h : parse data = .ok i) :
    i.trailing = data.length - (16 + i.trainer.length + i.prg.length + i.chr.length) := by
  have hlength := length_eq_of_parse h
  omega

theorem messages_cases (i : Image) :
    i.trailing = 0 ∧ i.messages = [⟨utf8 "cartridge", i.header.text⟩] ∨
      0 < i.trailing ∧ i.messages = [⟨utf8 "cartridge", i.header.text⟩,
        ⟨utf8 "cartridge", Numeral.decimal i.trailing ++ utf8 " trailing bytes ignored"⟩] := by
  by_cases hzero : i.trailing = 0
  · exact .inl ⟨hzero, by simp [messages, logTag, hzero]⟩
  · exact .inr ⟨Nat.pos_of_ne_zero hzero, by simp [messages, logTag, hzero]⟩

theorem tag_of_mem_messages {i : Image} {m : Message} (hm : m ∈ i.messages) :
    m.tag = utf8 "cartridge" := by
  rcases i.messages_cases with ⟨-, hi⟩ | ⟨-, hi⟩
  · rw [hi, List.mem_singleton] at hm
    rw [hm]
  · rw [hi, List.mem_pair] at hm
    rcases hm with rfl | rfl <;> rfl

theorem newline_notMem_detail_of_mem_messages {i : Image} {m : Message} (hm : m ∈ i.messages) :
    newline ∉ m.detail := by
  have htrailing : newline ∉ Numeral.decimal i.trailing ++ utf8 " trailing bytes ignored" := by
    rw [List.mem_append, not_or]
    exact ⟨Numeral.notMem_decimal (by decide) _, by decide⟩
  rcases i.messages_cases with ⟨-, hi⟩ | ⟨-, hi⟩
  · rw [hi, List.mem_singleton] at hm
    rw [hm]
    exact i.header.newline_notMem_text
  · rw [hi, List.mem_pair] at hm
    rcases hm with rfl | rfl
    · exact i.header.newline_notMem_text
    · exact htrailing

theorem clean_of_mem_messages {i : Image} {m : Message} (hm : m ∈ i.messages) : m.clean = m := by
  refine Message.clean_of_newline_notMem ?_ (newline_notMem_detail_of_mem_messages hm)
  rw [tag_of_mem_messages hm]
  decide

theorem map_single_messages {data : Bytes} {i : Image} (h : parse data = .ok i) :
    i.messages.map Entry.single = i.logEntries data := by
  have hsingle : i.messages.map Entry.single = i.messages.map fun m => ⟨m, 0⟩ := by
    refine List.map_congr_left fun m hm => ?_
    rw [Entry.single, clean_of_mem_messages hm]
  rw [hsingle, logEntries, ← trailing_eq h]
  rcases i.messages_cases with ⟨hzero, hi⟩ | ⟨hpos, hi⟩
  · simp [hi, hzero]
  · simp [hi, hpos]

/-- The header text has commas and the count of trailing bytes has none. -/
theorem isChain_messages (i : Image) : (i.messages.map Message.clean).IsChain (· ≠ ·) := by
  have hclean : i.messages.map Message.clean = i.messages :=
    (List.map_congr_left fun m hm => clean_of_mem_messages hm).trans (List.map_id _)
  rw [hclean]
  rcases i.messages_cases with ⟨-, hi⟩ | ⟨-, hi⟩
  · rw [hi]
    exact List.isChain_singleton _
  · rw [hi, List.isChain_cons_cons]
    refine ⟨?_, List.isChain_singleton _⟩
    intro heq
    obtain ⟨-, htext⟩ := Message.mk.inj heq
    have hcomma := i.header.comma_mem_text
    rw [htext, List.mem_append] at hcomma
    rcases hcomma with hcomma | hcomma
    · exact Numeral.notMem_decimal (by decide) _ hcomma
    · exact absurd hcomma (by decide)

theorem length_messages_le (i : Image) : i.messages.length ≤ 2 := by
  rcases i.messages_cases with ⟨-, hi⟩ | ⟨-, hi⟩ <;> simp [hi]

end Image

namespace Program

/-- What is logged about the program of an image. -/
def logEntry (i : Image) (p : Program) : Entry :=
  ⟨⟨utf8 "disassembler", utf8 "decoded " ++ Numeral.decimal p.instructions.length ++
    utf8 " instructions (" ++ Numeral.decimal (p.instructions.countP Instruction.undocumented) ++
    utf8 " undocumented) from " ++ Numeral.decimal i.header.prgSize ++ utf8 " bytes"⟩, 0⟩

theorem single_summary {i : Image} {p : Program}
    (h : decode i.prg i.header.prgSize = .ok p) : Entry.single p.summary = p.logEntry i := by
  obtain ⟨_, _, _, hsize⟩ := decode_eq_ok_iff.1 h
  have hnumeral : Numeral.integer p.size = Numeral.decimal i.header.prgSize := by
    rw [hsize]
    rfl
  have hdecimal (n : Nat) : newline ∉ Numeral.decimal n := Numeral.notMem_decimal (by decide) n
  have htag : newline ∉ utf8 "disassembler" := by decide
  have hdetail : newline ∉ (p.logEntry i).message.detail := by
    simp +decide only [logEntry, List.mem_append, hdecimal, or_self, not_false_eq_true]
  calc Entry.single p.summary
      = Entry.single (p.logEntry i).message := by
        simp only [summary, hnumeral, logEntry, undocumentedCount]
    _ = p.logEntry i := by
        rw [Entry.single, Message.clean_of_newline_notMem htag hdetail]
        rfl

end Program

/-- What is logged about a listing that was sent off. -/
def Console.outputEntries (output : String) : List Entry :=
  if output = "" then []
  else [⟨⟨utf8 "nesdis", utf8 "listing written to " ++
    (utf8 output).map fun b => if b = newline then 0x20 else b⟩, 0⟩]

theorem Console.clean_writtenMessage (output : String) :
    (writtenMessage output).clean = ⟨utf8 "nesdis", utf8 "listing written to " ++
      (utf8 output).map fun b => if b = newline then 0x20 else b⟩ := by
  have htag : (utf8 "nesdis").filter (· != newline) = utf8 "nesdis" := by decide
  have hdetail : (utf8 "listing written to ").map (fun b => if b = newline then 0x20 else b) =
      utf8 "listing written to " := by decide
  rw [writtenMessage, Message.clean, htag, List.map_append, hdetail]

/-! ## The messages of a run -/

namespace Progress

/-- The messages of a run that has come this far. -/
def messages (output : String) : Progress → List Message
  | nothing => []
  | loaded _ i => i.messages
  | decoded _ i p => i.messages ++ [p.summary]
  | finished _ i p =>
    i.messages ++ [p.summary] ++ if output = "" then [] else [Console.writtenMessage output]

/-- The log after a run that has come this far. -/
def entries (output : String) : Progress → List Entry
  | nothing => []
  | loaded data i => i.logEntries data
  | decoded data i p => i.logEntries data ++ [p.logEntry i]
  | finished data i p => i.logEntries data ++ [p.logEntry i] ++ Console.outputEntries output

theorem filterMap_imageRemarks (input : String) (header : Bool) (i : Image) :
    (imageRemarks input header i).filterMap Remark.message? = i.messages := by
  have hlogged : (i.messages.map Remark.logged).filterMap Remark.message? = i.messages := by
    rw [List.filterMap_map]
    exact List.filterMap_some
  rw [imageRemarks, List.filterMap_append, hlogged]
  cases header <;> exact List.append_nil _

theorem filterMap_remarks (input output : String) (header : Bool) (reached : Progress) :
    (reached.remarks input output header).filterMap Remark.message? = reached.messages output := by
  cases reached with
  | nothing => rfl
  | loaded data i => exact filterMap_imageRemarks input header i
  | decoded data i p =>
    rw [remarks, List.filterMap_append, filterMap_imageRemarks]
    rfl
  | finished data i p =>
    rw [remarks, List.filterMap_append, List.filterMap_append, filterMap_imageRemarks,
      outputRemarks]
    by_cases hout : output = ""
    · simp only [hout, if_true, messages]
      rfl
    · simp only [if_neg hout, messages]
      rfl

/-- Another tag is another message. -/
theorem isChain_concat {ms : List Message} {m : Message}
    (h : (ms.map Message.clean).IsChain (· ≠ ·)) (hm : ∀ n ∈ ms, n.clean.tag ≠ m.clean.tag) :
    ((ms ++ [m]).map Message.clean).IsChain (· ≠ ·) := by
  rw [List.map_append, List.isChain_append]
  refine ⟨h, List.isChain_singleton _, ?_⟩
  intro a ha b hb
  obtain ⟨n, hn, rfl⟩ := List.mem_map.1 (List.mem_of_getLast? ha)
  obtain rfl : m.clean = b := Option.some.inj hb
  exact fun heq => hm n hn (congrArg Message.tag heq)

theorem isChain_messages (output : String) (reached : Progress) :
    ((reached.messages output).map Message.clean).IsChain (· ≠ ·) := by
  have hsummary (p : Program) : p.summary.clean.tag = utf8 "disassembler" := by
    show (utf8 "disassembler").filter (· != newline) = utf8 "disassembler"
    decide
  have hdecoded (i : Image) (p : Program) :
      ((i.messages ++ [p.summary]).map Message.clean).IsChain (· ≠ ·) := by
    refine isChain_concat i.isChain_messages fun m hm => ?_
    rw [Image.clean_of_mem_messages hm, Image.tag_of_mem_messages hm, hsummary]
    decide
  cases reached with
  | nothing => exact .nil
  | loaded data i => exact i.isChain_messages
  | decoded data i p => exact hdecoded i p
  | finished data i p =>
    rw [messages]
    by_cases hout : output = ""
    · rw [if_pos hout, List.append_nil]
      exact hdecoded i p
    · rw [if_neg hout]
      refine isChain_concat (hdecoded i p) fun m hm => ?_
      rw [Console.clean_writtenMessage]
      rcases List.mem_append.1 hm with hm | hm
      · rw [Image.clean_of_mem_messages hm, Image.tag_of_mem_messages hm]
        show utf8 "cartridge" ≠ utf8 "nesdis"
        decide
      · rw [List.mem_singleton.1 hm, hsummary]
        show utf8 "disassembler" ≠ utf8 "nesdis"
        decide

theorem length_messages_le (output : String) (reached : Progress) :
    (reached.messages output).length ≤ 4 := by
  cases reached with
  | nothing => exact Nat.zero_le _
  | loaded data i => exact i.length_messages_le.trans (by decide)
  | decoded data i p =>
    have hi := i.length_messages_le
    simp only [messages, List.length_append, List.length_singleton]
    omega
  | finished data i p =>
    have hi := i.length_messages_le
    simp only [messages, List.length_append, List.length_singleton]
    split <;> simp only [List.length_nil, List.length_singleton] <;> omega

/-- Every message of a run has an entry to itself. -/
theorem entries_addAll (output : String) (reached : Progress) :
    (Log.empty.addAll (reached.messages output)).entries =
      (reached.messages output).map Entry.single :=
  Log.entries_addAll_of_isChain (reached.isChain_messages output)
    ((reached.length_messages_le output).trans (by decide))

end Progress

theorem Course.map_single_messages {files : FileSystem} {input output : String}
    {result : Except RunError Unit} {reached : Progress}
    (h : Course files input output result reached) :
    (reached.messages output).map Entry.single = reached.entries output := by
  cases h with
  | noImage _ => rfl
  | unloadable _ _ => rfl
  | undecodable hholds _ => exact Image.map_single_messages hholds.parse_eq
  | outputFull hholds hdecode _ | unwritable hholds hdecode _ _ =>
    rw [Progress.messages, Progress.entries, List.map_append,
      Image.map_single_messages hholds.parse_eq, List.map_singleton, Program.single_summary hdecode]
  | complete hholds hdecode =>
    rw [Progress.messages, Progress.entries, List.map_append, List.map_append,
      Image.map_single_messages hholds.parse_eq, List.map_singleton,
      Program.single_summary hdecode, Console.outputEntries]
    by_cases hout : output = ""
    · simp only [hout, if_true, List.map_nil]
    · simp only [if_neg hout, List.map_singleton, Entry.single, Console.clean_writtenMessage]

namespace Console

/-- The log after a run is known from how far the run came, with an entry for each message. What was
logged before has no influence on it, nor on anything else a run does. -/
theorem run_log (c : Console) (input output : String) (header : Bool) :
    (∃ reached, Course c.files input output (c.run input output header).1 reached ∧
      (c.run input output header).2.log.entries = reached.entries output) ∧
      ∀ before : Log,
        ({ c with recorder := { c.recorder with log := before } } : Console).run input output
          header = c.run input output header := by
  obtain ⟨result, reached, after, shown, hcourse, hrun⟩ :=
    exists_course c.files c.stdout input output header
  have hc : c.run input output header = _ := hrun c.recorder c.errors
  refine ⟨⟨reached, ?_, ?_⟩, ?_⟩
  · rw [hc]
    exact hcourse
  · rw [hc, log_remarkAll, Progress.filterMap_remarks, ← hcourse.map_single_messages]
    exact reached.entries_addAll output
  · intro before
    rw [hc]
    exact hrun { c.recorder with log := before } c.errors

end Console

end Disasm6502
