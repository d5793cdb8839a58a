import Disasm6502.Proofs.DecoderRun
import Disasm6502.Proofs.ImageSections
import Disasm6502.Proofs.RunStages

/-!
Where the listing of a run goes. A write replaces one file and is read back as it was written
(`rewritten_of_write`), so a run into a file leaves there what the same run without a file sends to
standard output. A run that fails has sent nothing anywhere.
-/

namespace Disasm6502

namespace FileSystem

/-! ## Reading what was written -/

theorem write_eq_ok_iff {fs after : FileSystem} {path : String} {content : Bytes} :
    fs.write path content = .ok after ↔
      ∃ p, fs.locateTarget path = .ok p ∧
        after = { fs with files := replace p content fs.files } := by
  unfold write
  cases fs.locateTarget path <;> simp [eq_comm]

theorem locate_of_locateTarget {fs : FileSystem} {path : String} {p : Place}
    (h : fs.locateTarget path = .ok p) : fs.locate path = .ok p ∧ fs.isDirectory p = false := by
  unfold locateTarget at h
  split at h
  · split at h <;> cases h
  · split at h
    · cases h
    · rename_i q hq
      cases hdir : fs.isDirectory q with
      | true => simp [hdir] at h
      | false =>
        simp only [hdir, Bool.false_eq_true, if_false, Except.ok.injEq] at h
        subst h
        exact ⟨hq, hdir⟩

theorem node?_eq_directory_iff {fs : FileSystem} {p : Place} :
    fs.node? p = some .directory ↔ fs.isDirectory p = true := by
  cases h : fs.isDirectory p with
  | true => simp [node?, h]
  | false => simp [node?, h]

theorem isDirectory_congr {fs after : FileSystem} (h : after.directories = fs.directories)
    (p : Place) : after.isDirectory p = fs.isDirectory p := by
  simp only [isDirectory, h]

/-- Names are followed through directories only, so new files change nothing about the way. -/
theorem walk_of_directories_eq {fs after : FileSystem} (h : after.directories = fs.directories)
    {names : List String} {p q : Place} (hwalk : fs.walk p names = .ok q) :
    after.walk p names = .ok q := by
  induction names generalizing p with
  | nil => exact hwalk
  | cons name rest ih =>
    simp only [walk] at hwalk ⊢
    split at hwalk
    · cases hwalk
    · cases hwalk
    · rename_i hnode
      have hdir : after.node? p = some .directory := by
        rw [node?_eq_directory_iff, isDirectory_congr h]
        exact node?_eq_directory_iff.1 hnode
      rw [hdir]
      split at hwalk
      · cases hwalk
      · rename_i hname
        simp only [if_neg hname]
        exact ih hwalk

theorem locate_of_directories_eq {fs after : FileSystem} (h : after.directories = fs.directories)
    {path : String} {p : Place} (hlocate : fs.locate path = .ok p) :
    after.locate path = .ok p := by
  unfold locate follow at hlocate ⊢
  split at hlocate
  · cases hlocate
  rename_i hvalid
  split at hlocate
  · cases hlocate
  rename_i hnonempty
  split at hlocate
  · cases hlocate
  rename_i hlength
  rw [if_neg hvalid, if_neg hnonempty, if_neg hlength]
  exact walk_of_directories_eq h hlocate

/-- Only the file that a path names has changed, and it now has this content. -/
structure Rewritten (before : FileSystem) (path : String) (content : Bytes)
    (after : FileSystem) : Prop where
  read_eq : after.read path = .ok content
  directories_eq : after.directories = before.directories
  others : ∃ place, before.locateTarget path = .ok place ∧
    ∀ q, q ≠ place → after.content? q = before.content? q

theorem rewritten_of_write {fs after : FileSystem} {path : String} {content : Bytes}
    (h : fs.write path content = .ok after) : Rewritten fs path content after := by
  obtain ⟨p, htarget, hafter⟩ := write_eq_ok_iff.1 h
  have hdirectories : after.directories = fs.directories := by rw [hafter]
  have hcontent := content?_write htarget h
  obtain ⟨hlocate, hfile⟩ := locate_of_locateTarget htarget
  refine ⟨?_, hdirectories, p, htarget, ?_⟩
  · have hnode : after.node? p = some (.file content) := by
      simp [node?, isDirectory_congr hdirectories, hfile, hcontent]
    simp only [read, locate_of_directories_eq hdirectories hlocate, hnode]
  · intro q hq
    rw [hcontent, if_neg hq]

end FileSystem

namespace Console

/-! ## Sending the listing off -/

theorem echo_decoded (c : Console) (input : String) (header : Bool) (image : Image)
    (p : Program) : (c.decoded input header image p).recorder.echo = c.recorder.echo := by
  have hloaded : (c.recorder.clear.recordAll image.messages).echo = c.recorder.echo :=
    Recorder.echo_recordAll _ _
  cases header
  · exact hloaded
  · exact (echo_writeError _ _).trans hloaded

theorem errors_decoded_eq_none_iff (c : Console) (input : String) (header : Bool) (image : Image)
    (p : Program) : (c.decoded input header image p).errors = none ↔ c.errors = none := by
  cases header
  · rfl
  · exact errors_writeError_eq_none_iff _ _

theorem emit_stdout {c : Console} (h : c.stdout.room = none) (p : Program) :
    c.emit "" p = (.ok (), { c with stdout := c.stdout.write (p.listing ++ [newline]) }) := by
  simp only [emit, Sink.fits, h, if_true, Program.output_eq_listing]

theorem emit_file {c : Console} {output : String} (h : output ≠ "") (p : Program) :
    c.emit output p =
      match c.files.write output (p.listing ++ [newline]) with
      | .error e => (.error (.unwritable e), c)
      | .ok files =>
        (.ok (), { c with
          files := files
          recorder := c.recorder.record (writtenMessage output)
          stdout := c.stdout.write (writtenNotice output) }) := by
  cases hwrite : c.files.write output (p.listing ++ [newline]) with
  | error e => simp only [emit, if_neg h, Program.output_eq_listing, hwrite]
  | ok files => simp only [emit, if_neg h, Program.output_eq_listing, hwrite]

/-- A listing that is not sent off has left no trace. -/
theorem emit_error {c : Console} (hroom : c.stdout.room = none) {output : String} {p : Program}
    {e : RunError} (h : (c.emit output p).1 = .error e) : (c.emit output p).2 = c := by
  by_cases hout : output = ""
  · rw [hout, emit_stdout hroom] at h
    cases h
  · rw [emit_file hout] at h ⊢
    cases hwrite : c.files.write output (p.listing ++ [newline]) with
    | error err => rfl
    | ok files =>
      rw [hwrite] at h
      cases h

theorem room_decoded {c : Console} (h : c.stdout.room = none) (input : String) (header : Bool)
    (image : Image) (p : Program) : (c.decoded input header image p).stdout.room = none := by
  rw [stdout_decoded, h]

/-- A run that fails has sent nothing to standard output and has changed no file. -/
theorem unchanged_of_run_error {c : Console} (hroom : c.stdout.room = none)
    {input output : String} {header : Bool} {e : RunError}
    (h : (c.run input output header).1 = .error e) :
    (c.run input output header).2.stdout = c.stdout ∧
      (c.run input output header).2.files = c.files := by
  rcases run_cases c input header with ⟨err, after, hfiles, hstdout, hrun⟩ | ⟨image, p, _, _, hrun⟩
  · rw [hrun]
    exact ⟨hstdout, hfiles⟩
  · rw [hrun] at h ⊢
    rw [emit_error (room_decoded hroom input header image p) h]
    exact ⟨stdout_decoded .., files_decoded ..⟩

/-- A run into a file that can be written and a run to standard output agree: they succeed together,
and what the second writes out is what the file then holds. Where log messages are echoed to the
first shows one message more; on standard error it shows the same, unless that is where they are
echoed to. A run that fails leaves standard output and files as they were. -/
theorem run_file_agrees_with_stdout (c : Console) (hroom : c.stdout.room = none) (input : String)
    (header : Bool) :
    (∀ output, output ≠ "" → (∃ text after, c.files.write output text = .ok after) →
      (c.run input output header).1 = (c.run input "" header).1 ∧
        ((c.run input "" header).1 = .ok () →
          ∃ data image p, c.files.read input = .ok data ∧ Image.parse data = .ok image ∧
            Program.decode image.prg image.header.prgSize = .ok p ∧
            (c.run input "" header).2.stdout.written =
              c.stdout.written ++ (p.listing ++ [newline]) ∧
            (c.run input "" header).2.files = c.files ∧
            c.files.Rewritten output (p.listing ++ [newline]) (c.run input output header).2.files ∧
            (c.run input output header).2.recorder.stream =
              (c.run input "" header).2.recorder.echoed (writtenMessage output) ∧
            (c.errors ≠ none →
              (c.run input output header).2.stderr = (c.run input "" header).2.stderr) ∧
            (c.errors = none →
              (c.run input output header).2.stderr =
                (c.run input "" header).2.recorder.echoed (writtenMessage output)) ∧
            (c.recorder.echo = .off →
              (c.run input output header).2.stderr = (c.run input "" header).2.stderr))) ∧
      ∀ output e, (c.run input output header).1 = .error e →
        (c.run input output header).2.stdout = c.stdout ∧
          (c.run input output header).2.files = c.files := by
  refine ⟨?_, fun output e h => unchanged_of_run_error hroom h⟩
  rintro output hne ⟨text, after, hwrite⟩
  rcases run_cases c input header with ⟨err, _, _, _, hrun⟩ | ⟨image, p, hload, hdecode, hrun⟩
  · rw [hrun, hrun]
    exact ⟨rfl, fun h => nomatch h⟩
  · obtain ⟨place, htarget, -⟩ := FileSystem.write_eq_ok_iff.1 hwrite
    obtain ⟨data, hread, hparse⟩ := FileSystem.load_eq_ok_iff.1 hload
    have hwritten : c.files.write output (p.listing ++ [newline]) =
        .ok { c.files with
          files := FileSystem.replace place (p.listing ++ [newline]) c.files.files } :=
      FileSystem.write_eq_ok_iff.2 ⟨place, htarget, rfl⟩
    have hfile := emit_file (c := c.decoded input header image p) hne p
    rw [files_decoded, hwritten] at hfile
    rw [hrun, hrun, hfile, emit_stdout (room_decoded hroom input header image p)]
    refine ⟨rfl, fun _ => ⟨data, image, p, hread, hparse, hdecode, ?_, ?_,
      FileSystem.rewritten_of_write hwritten, rfl, ?_, ?_, ?_⟩⟩
    · rw [stdout_decoded, Sink.written_write, Sink.accepted, hroom]
    · exact files_decoded c input header image p
    · intro hseparate
      rw [ne_eq, ← errors_decoded_eq_none_iff c input header image p] at hseparate
      obtain ⟨errors, herrors⟩ := Option.ne_none_iff_exists'.1 hseparate
      simp only [stderr, herrors, Option.getD_some]
    · intro hshared
      rw [← errors_decoded_eq_none_iff c input header image p] at hshared
      simp only [stderr, hshared, Option.getD_none]
      rfl
    · intro hoff
      rw [← echo_decoded c input header image p] at hoff
      rw [stderr, Recorder.record, Recorder.echoed_of_off hoff]
      rfl

/-- The header of an image with one bank of PRG-ROM and nothing else. -/
def bankHeader : Bytes := [0x4E, 0x45, 0x53, 0x1A, 1, 0, 0, 0, 0, 0, 0, 0, 0, 0, 0, 0]

/-- A console whose only file is an image with a bank of `NOP`. -/
def nopConsole : Console :=
  ⟨⟨[], [(["game.nes"], bankHeader ++ List.replicate 16384 0xEA)]⟩, .silent, .unlimited,
    some .unlimited⟩

/-- The listing of a whole bank, in a file and on standard output. -/
theorem run_file_agrees_with_stdout_nops :
    ∃ p : Program, p.instructions = List.replicate 16384 (.ofOpcode 0xEA none) ∧
      (nopConsole.run "game.nes" "game.asm" true).1 = .ok () ∧
      (nopConsole.run "game.nes" "game.asm" true).2.files.read "game.asm" =
        .ok (p.listing ++ [newline]) ∧
      (nopConsole.run "game.nes" "" true).2.stdout.written = p.listing ++ [newline] := by
  have hread : nopConsole.files.read "game.nes" =
      .ok (bankHeader ++ List.replicate 16384 0xEA) := rfl
  have hparse : Image.parse (bankHeader ++ List.replicate 16384 0xEA) =
      .ok ⟨.ofBytes bankHeader, [], List.replicate 16384 0xEA, [], 0⟩ := by
    have h := @Image.parse_sections bankHeader [] (List.replicate 16384 0xEA) [] rfl rfl rfl
      List.length_replicate rfl []
    simpa only [List.append_nil, List.length_nil] using h
  have hencode : (List.replicate 16384 (Instruction.ofOpcode 0xEA none)).flatMap
      Instruction.encode = List.replicate 16384 0xEA := by
    rw [List.flatMap_replicate]
    exact List.flatten_replicate_singleton
  have hdecode : Program.decode (List.replicate 16384 0xEA) (Header.ofBytes bankHeader).prgSize =
      .ok ⟨List.replicate 16384 (.ofOpcode 0xEA none), 16384⟩ := by
    refine Program.decode_eq_ok_iff.2 ⟨?_, ?_, ?_, rfl⟩
    · intro i hi
      rw [List.eq_of_mem_replicate hi]
      decide
    · rw [Program.encode, hencode, List.take_of_length_le]
      exact Nat.le_of_eq List.length_replicate
    · exact Nat.le_of_eq List.length_replicate.symm
  have hload := FileSystem.load_eq_ok_iff.2 ⟨_, hread, hparse⟩
  have hstdout : (nopConsole.run "game.nes" "" true).1 = .ok () := by
    rw [run_of_decode_ok (by decide) hload hdecode, emit_stdout (room_decoded rfl ..)]
  obtain ⟨hsame, hthen⟩ := (run_file_agrees_with_stdout nopConsole rfl "game.nes" true).1
    "game.asm" (by decide) ⟨[], _, rfl⟩
  obtain ⟨data, image, p, hread', hparse', hdecode', hwritten, _, hfile, _⟩ := hthen hstdout
  rw [hread] at hread'
  cases hread'
  rw [hparse] at hparse'
  cases hparse'
  rw [hdecode] at hdecode'
  cases hdecode'
  have hempty : nopConsole.stdout.written = [] := rfl
  rw [hempty, List.nil_append] at hwritten
  exact ⟨_, rfl, hsame.trans hstdout, hfile.read_eq, hwritten⟩

end Console

end Disasm6502
