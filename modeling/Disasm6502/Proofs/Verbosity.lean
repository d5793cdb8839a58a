import Disasm6502.CommandLine.Execute
import Disasm6502.Proofs.RunLog

/-!
Verbose and quiet commands. The two carry out the same run with different recorders, so by
`exists_course` they do the same but for the place where log messages show: a verbose command shows
them as they come, and a quiet one shows the end of the log after a failure. That end is the whole
log (`tail_addAll`), because a run logs no more messages than are shown.
-/

namespace Disasm6502

theorem Entry.text_single (m : Message) : (single m).text = m.clean.line := by
  simp [single, text, repeatNote, Message.line]

theorem Log.tail_eq_text {l : Log} {n : Int} (h : l.entries.length ≤ n.toNat) :
    l.tail n = l.text := by
  rw [entries, List.length_reverse] at h
  rw [tail, text, entries, List.take_of_length_le h]

namespace Progress

theorem text_addAll (output : String) (reached : Progress) :
    (Log.empty.addAll (reached.messages output)).text =
      (reached.messages output).flatMap fun m => m.clean.line := by
  rw [Log.text, entries_addAll, List.flatMap_map]
  simp only [Entry.text_single]

theorem tail_addAll (output : String) (reached : Progress) :
    (Log.empty.addAll (reached.messages output)).tail 4 =
      (Log.empty.addAll (reached.messages output)).text := by
  apply Log.tail_eq_text
  rw [entries_addAll, List.length_map]
  exact reached.length_messages_le output

end Progress

namespace CommandLine

/-- The files after the log is saved, and what is said about a failure to do so. -/
def saved (config : Config) (files : FileSystem) (log : Log) : FileSystem × List Remark :=
  if config.logFile = "" then (files, [])
  else
    match files.write config.logFile log.text with
    | .ok after => (after, [])
    | .error e => (files, [.note (errorLine (Console.logFileMessage e))])

theorem saveLog_eq (config : Config) (c : Console) :
    saveLog config c =
      ({ c with files := (saved config c.files c.log).1 } : Console).remarkAll
        (saved config c.files c.log).2 := by
  unfold saveLog saved Console.writeLog
  split
  · rfl
  · cases c.files.write config.logFile c.log.text <;> rfl

/-- Saving the log logs nothing. -/
theorem filterMap_saved (config : Config) (files : FileSystem) (log : Log) :
    (saved config files log).2.filterMap Remark.message? = [] := by
  unfold saved
  split
  · rfl
  · cases files.write config.logFile log.text <;> rfl

theorem stderr_listening (config : Config) (echo : Echo) (c : Console) :
    (listening config echo c).stderr = c.stderr := by
  unfold listening; split <;> rfl

/-- A command that is not verbose echoes nothing if nothing was echoed before it. -/
theorem echoes_listening (config : Config) {c : Console} (hoff : c.recorder.echo = .off) :
    (listening config .plain c).Echoes config.verbose := by
  unfold listening
  cases config.verbose with
  | true => exact ⟨rfl, rfl⟩
  | false => exact hoff

/-- The log of a run that has come this far. -/
def logOf (config : Config) (reached : Progress) : Log :=
  Log.empty.addAll (reached.messages config.output)

/-- What a command has said after a run that has come this far, with the log saved. -/
def said (config : Config) (reached : Progress) (files : FileSystem) : List Remark :=
  reached.remarks config.input config.output config.header ++
    (saved config files (logOf config reached)).2

theorem filterMap_said (config : Config) (reached : Progress) (files : FileSystem) :
    (said config reached files).filterMap Remark.message? = reached.messages config.output := by
  rw [said, List.filterMap_append, filterMap_saved, List.append_nil, Progress.filterMap_remarks]

/-- The result of a run and how far it came, under any recorder and wherever standard error goes. -/
def Runs (config : Config) (c : Console) (result : Except RunError Unit) (reached : Progress)
    (after : FileSystem) (shown : Sink) : Prop :=
  ∀ r errors,
    (⟨c.files, r, c.stdout, errors⟩ : Console).run config.input config.output config.header =
      (result, (⟨after, r.clear, shown, errors⟩ : Console).remarkAll
        (reached.remarks config.input config.output config.header))

/-- The console once a run that came this far is over and the log is saved. -/
def settled (config : Config) (c : Console) (reached : Progress) (after : FileSystem)
    (shown : Sink) : Console :=
  (⟨(saved config after (logOf config reached)).1, c.recorder.clear, shown, c.errors⟩ :
    Console).remarkAll (said config reached after)

section Settled

variable (config : Config) (c : Console) (reached : Progress) (after : FileSystem) (shown : Sink)

theorem files_settled :
    (settled config c reached after shown).files =
      (saved config after (logOf config reached)).1 := Console.files_remarkAll ..

theorem stdout_settled : (settled config c reached after shown).stdout = shown :=
  Console.stdout_remarkAll ..

theorem log_settled : (settled config c reached after shown).log = logOf config reached := by
  rw [settled, Console.log_remarkAll, filterMap_said]
  rfl

/-- After a failed run the failure is reported, and a quiet command shows the end of the log. -/
theorem conclude_settled (e : RunError) :
    conclude config (.error e) (settled config c reached after shown) =
      (1, (settled config c reached after shown).remarkAll (.note (failureLine e) ::
        if config.verbose then [] else [.note ((logOf config reached).tail 4)])) := by
  unfold conclude
  cases config.verbose with
  | true => rfl
  | false =>
    simp only [Bool.false_eq_true, if_false, Console.log_writeError, log_settled]
    rfl

end Settled

section Performed

variable {c : Console} {result : Except RunError Unit} {reached : Progress} {after : FileSystem}
  {shown : Sink}

theorem log_run {config : Config} (hrun : Runs config c result reached after shown) :
    (c.run config.input config.output config.header).2.log = logOf config reached := by
  have hc : c.run config.input config.output config.header = _ := hrun c.recorder c.errors
  rw [hc, Console.log_remarkAll, Progress.filterMap_remarks]
  rfl

/-- The same run under any recorder is the same command up to what the recorder shows. -/
theorem perform_eq (config : Config) (echo : Echo)
    (hrun : Runs config c result reached after shown) :
    perform config echo c =
      conclude config result (settled config (listening config echo c) reached after shown) := by
  let start : Console := ⟨after, (listening config echo c).recorder.clear, shown,
    (listening config echo c).errors⟩
  have hstart : (listening config echo c).run config.input config.output config.header =
      (result, start.remarkAll (reached.remarks config.input config.output config.header)) := by
    simp only [start]
    unfold listening
    split
    · exact hrun _ _
    · exact hrun _ _
  have hlog : (start.remarkAll (reached.remarks config.input config.output config.header)).log =
      logOf config reached := by
    rw [Console.log_remarkAll, Progress.filterMap_remarks]
    rfl
  have hsaved := Console.remarkAll_with start (saved config after (logOf config reached)).1 shown
    (reached.remarks config.input config.output config.header)
  rw [perform, hstart]
  simp only [saveLog_eq, hlog, Console.files_remarkAll]
  rw [settled, said, Console.remarkAll_append, hsaved]
  simp [start]

/-- What a command shows on standard error if its run fails: all that was said, with or without the
log messages in it, and behind it the end of the log if it was without them. -/
theorem stderr_of_error (config : Config) {e : RunError}
    (hrun : Runs config c (.error e) reached after shown) (hroom : c.stderr.room = none)
    (hoff : c.recorder.echo = .off) :
    (perform config .plain c).2.stderr.written =
      c.stderr.written ++
        (said config reached after ++ [Remark.note (failureLine e)]).flatMap
          (Remark.shown config.verbose) ++
        if config.verbose then [] else (logOf config reached).tail 4 := by
  let start : Console := ⟨(saved config after (logOf config reached)).1,
    (listening config .plain c).recorder.clear, shown, (listening config .plain c).errors⟩
  have hstderr : start.stderr = c.stderr := stderr_listening config .plain c
  have hecho : start.Echoes config.verbose := echoes_listening config hoff
  have hwritten := Console.written_remarkAll (hstderr ▸ hroom) hecho
  rw [perform_eq config .plain hrun, conclude_settled, settled, ← Console.remarkAll_append,
    hwritten, hstderr]
  cases config.verbose with
  | true => simp
  | false => simp [Remark.shown]

end Performed

/-- Verbosity decides only where the log is shown. Exit status, standard output and files are the
same, and after a failed run so is the sequence of log lines on standard error: `said` has them
among the other lines, where a verbose command echoes them, and a quiet one shows all of them at the
end.
A log file that cannot be written has no influence on the exit status. -/
theorem verbose_only_moves_log (config : Config) (c : Console) (hroom : c.stderr.room = none)
    (hoff : c.recorder.echo = .off) :
    let loud := perform { config with verbose := true } .plain c
    let quiet := perform { config with verbose := false } .plain c
    let run := c.run config.input config.output config.header
    loud.1 = quiet.1 ∧ (quiet.1 = 1 ↔ ∃ e, run.1 = .error e) ∧ (quiet.1 = 0 ↔ run.1 = .ok ()) ∧
      loud.2.stdout = quiet.2.stdout ∧ loud.2.files = quiet.2.files ∧
      ∀ e, run.1 = .error e →
        ∃ said : List Remark,
          loud.2.stderr.written = c.stderr.written ++ said.flatMap (Remark.shown true) ∧
          quiet.2.stderr.written =
            c.stderr.written ++ said.flatMap (Remark.shown false) ++ run.2.log.tail 4 ∧
          run.2.log.tail 4 = (said.filterMap Remark.message?).flatMap (fun m => m.clean.line) ∧
          run.2.log.text = run.2.log.tail 4 := by
  obtain ⟨result, reached, after, shown, _, hrun⟩ :=
    Console.exists_course c.files c.stdout config.input config.output config.header
  intro loud quiet run
  have hloud : loud = _ := perform_eq { config with verbose := true } .plain hrun
  have hquiet : quiet = _ := perform_eq { config with verbose := false } .plain hrun
  have hresult : run.1 = result := congrArg Prod.fst (hrun c.recorder c.errors)
  cases result with
  | ok u =>
    rw [hloud, hquiet, hresult]
    refine ⟨rfl, by simp [conclude], by simp [conclude], ?_, ?_, ?_⟩
    · exact (stdout_settled ..).trans (stdout_settled ..).symm
    · exact (files_settled ..).trans (files_settled ..).symm
    · intro e he
      cases he
  | error e =>
    have hlog : run.2.log = logOf config reached := log_run hrun
    have hloudErr := stderr_of_error { config with verbose := true } hrun hroom hoff
    have hquietErr := stderr_of_error { config with verbose := false } hrun hroom hoff
    rw [conclude_settled] at hloud hquiet
    refine ⟨?_, ?_, ?_, ?_, ?_, ?_⟩
    · rw [hloud, hquiet]
    · simp [hquiet, hresult]
    · simp [hquiet, hresult]
    · rw [hloud, hquiet, Console.stdout_remarkAll, Console.stdout_remarkAll, stdout_settled,
        stdout_settled]
    · rw [hloud, hquiet, Console.files_remarkAll, Console.files_remarkAll, files_settled,
        files_settled]
      rfl
    · intro e' he
      obtain rfl : e = e' := Except.error.inj (hresult.symm.trans he)
      refine ⟨said config reached after ++ [.note (failureLine e)], ?_, ?_, ?_, ?_⟩
      · exact hloudErr.trans (List.append_nil _)
      · rw [hlog]
        exact hquietErr
      · rw [hlog, logOf, Progress.tail_addAll, Progress.text_addAll, List.filterMap_append,
          filterMap_said]
        exact congrArg (List.flatMap _) (List.append_nil _).symm
      · rw [hlog]
        exact (reached.tail_addAll config.output).symm

/-- A console with an image that is only a header, with two bytes behind it. -/
def bareConsole : Console :=
  ⟨⟨[], [(["game.nes"], [0x4E, 0x45, 0x53, 0x1A, 0, 0, 0, 0, 0, 0, 0, 0, 0, 0, 0, 0, 1, 2])]⟩,
    .silent, .unlimited, some .unlimited⟩

/-- A command that can write neither its listing nor its log. -/
def strandedConfig : Config := ⟨"game.nes", "out/game.asm", "out/run.log", true, false, false⟩

/-- The three log lines of that run, which a failed run cannot exceed. -/
def strandedLog : Bytes :=
  utf8 "cartridge: iNES, mapper 0, PRG-ROM 0 KiB, CHR-ROM 0 KiB, PRG-RAM 0 KiB, " ++
    utf8 "vertical arrangement, NTSC, trainer false, battery false\n" ++
    utf8 "cartridge: 2 trailing bytes ignored\n" ++
    utf8 "disassembler: decoded 0 instructions (0 undocumented) from 0 bytes\n"

theorem run_stranded :
    let run := bareConsole.run strandedConfig.input strandedConfig.output strandedConfig.header
    run.1 = .error (.unwritable ⟨.opening, "out/game.asm", .notFound⟩) ∧
      run.2.log.tail 4 = strandedLog := by
  show (bareConsole.run "game.nes" "out/game.asm" true).1 = _ ∧
    (bareConsole.run "game.nes" "out/game.asm" true).2.log.tail 4 = _
  have hload : bareConsole.files.load "game.nes" =
      .ok ⟨.ofFields 0 0 0 0 0 0, [], [], [], 2⟩ := rfl
  have hdecode : Program.decode [] (Header.ofFields 0 0 0 0 0 0).prgSize = .ok ⟨[], 0⟩ :=
    Program.decode_eq_ok_iff.2 ⟨by decide, rfl, Nat.le_refl _, rfl⟩
  rw [Console.run_of_decode_ok (by decide) hload hdecode]
  exact ⟨rfl, by decide +kernel⟩

/-- Both show the three lines, the quiet command at the end, and the missing log file changes
nothing about the exit status. -/
theorem verbose_only_moves_log_stranded :
    (perform { strandedConfig with verbose := true } .plain bareConsole).1 = 1 ∧
      (perform strandedConfig .plain bareConsole).1 = 1 ∧
      ∃ said : List Remark,
        (said.filterMap Remark.message?).flatMap (fun m => m.clean.line) = strandedLog ∧
        (perform { strandedConfig with verbose := true } .plain bareConsole).2.stderr.written =
          said.flatMap (Remark.shown true) ∧
        (perform strandedConfig .plain bareConsole).2.stderr.written =
          said.flatMap (Remark.shown false) ++ strandedLog := by
  obtain ⟨herror, htail⟩ := run_stranded
  obtain ⟨hstatus, hfail, _, _, _, hsaid⟩ :=
    verbose_only_moves_log strandedConfig bareConsole rfl rfl
  obtain ⟨said, hloud, hquiet, hlines, _⟩ := hsaid _ herror
  have hone := hfail.2 ⟨_, herror⟩
  rw [htail] at hquiet hlines
  exact ⟨hstatus.trans hone, hone, said, hlines.symm, hloud, hquiet⟩

end CommandLine

end Disasm6502
