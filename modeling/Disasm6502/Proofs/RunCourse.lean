import Disasm6502.Proofs.RunStages

/-!
The course of a run. What is said in a run is a list of remarks that is known from the files and
from how far the run came (`Course`); the console only carries them out. `exists_course` says so for
all recorders and for every standard error at once: neither the log before the run nor the echo has
a part in what the run does.
-/

namespace Disasm6502

/-- Something said in a run: a log message, which is on standard error only if it is echoed, or a
note that is written there. -/
inductive Remark where
  | logged (m : Message)
  | note (text : Bytes)
  deriving DecidableEq, Repr

namespace Remark

def message? : Remark → Option Message
  | logged m => some m
  | note _ => none

/-- What a remark adds to standard error when log messages are echoed, or when they are not. -/
def shown (echoed : Bool) : Remark → Bytes
  | logged m => if echoed then m.clean.line else []
  | note text => text

end Remark

namespace Console

def remark (c : Console) : Remark → Console
  | .logged m => { c with recorder := c.recorder.record m }
  | .note text => c.writeError text

def remarkAll (c : Console) (rs : List Remark) : Console := rs.foldl remark c

theorem remarkAll_append (c : Console) (rs rs' : List Remark) :
    c.remarkAll (rs ++ rs') = (c.remarkAll rs).remarkAll rs' := List.foldl_append

theorem remarkAll_concat (c : Console) (rs : List Remark) (said : Remark) :
    c.remarkAll (rs ++ [said]) = (c.remarkAll rs).remark said := remarkAll_append c rs [said]

theorem remarkAll_logged (c : Console) (ms : List Message) :
    c.remarkAll (ms.map .logged) = { c with recorder := c.recorder.recordAll ms } := by
  induction ms generalizing c with
  | nil => rfl
  | cons m ms ih => exact ih (c.remark (.logged m))

/-- Remarks leave files and standard output to others. -/
theorem remarkAll_with (c : Console) (files : FileSystem) (stdout : Sink) (rs : List Remark) :
    ({ c with files := files, stdout := stdout } : Console).remarkAll rs =
      { c.remarkAll rs with files := files, stdout := stdout } := by
  induction rs generalizing c with
  | nil => rfl
  | cons said rs ih =>
    have hstep : ({ c with files := files, stdout := stdout } : Console).remark said =
        { c.remark said with files := files, stdout := stdout } := by
      cases said with
      | logged m => rfl
      | note text => cases herrors : c.errors <;> simp [remark, writeError, herrors]
    simpa only [remarkAll, List.foldl_cons, hstep] using ih (c.remark said)

@[simp] theorem files_remarkAll (c : Console) (rs : List Remark) :
    (c.remarkAll rs).files = c.files := by
  have h := congrArg files (remarkAll_with c c.files c.stdout rs)
  exact h

@[simp] theorem stdout_remarkAll (c : Console) (rs : List Remark) :
    (c.remarkAll rs).stdout = c.stdout := by
  have h := congrArg stdout (remarkAll_with c c.files c.stdout rs)
  exact h

/-- Notes do not enter the log. -/
theorem log_remarkAll (c : Console) (rs : List Remark) :
    (c.remarkAll rs).log = c.log.addAll (rs.filterMap Remark.message?) := by
  induction rs generalizing c with
  | nil => rfl
  | cons said rs ih =>
    cases said with
    | logged m => exact ih (c.remark (.logged m))
    | note text => exact (ih (c.writeError text)).trans (by rw [log_writeError]; rfl)

/-- Log messages show on standard error as they come, or they show nowhere. -/
def Echoes (c : Console) : Bool → Prop
  | true => c.recorder.echo = .plain ∧ c.errors = none
  | false => c.recorder.echo = .off

/-- One remark on a standard error that takes everything. -/
theorem stderr_remark {echoed : Bool} {c : Console} (hroom : c.stderr.room = none)
    (hecho : c.Echoes echoed) (said : Remark) :
    (c.remark said).stderr.room = none ∧ (c.remark said).Echoes echoed ∧
      (c.remark said).stderr.written = c.stderr.written ++ said.shown echoed := by
  cases said with
  | note text =>
    refine ⟨by simp [remark, hroom], ?_, by simp [remark, Remark.shown, Sink.accepted, hroom]⟩
    cases echoed <;> simpa [remark, Echoes] using hecho
  | logged m =>
    cases echoed with
    | false =>
      have hsame : (c.remark (.logged m)).stderr = c.stderr := by
        simp only [remark, stderr, Recorder.record, Recorder.echoed_of_off hecho]
      refine ⟨hsame ▸ hroom, hecho, ?_⟩
      rw [hsame]
      exact (List.append_nil _).symm
    | true =>
      obtain ⟨hplain, hshared⟩ := hecho
      have hline : (c.remark (.logged m)).stderr = c.stderr.write m.clean.line := by
        simp only [remark, stderr, hshared, Option.getD_none, Recorder.record, Recorder.echoed,
          hplain]
      refine ⟨by simp [hline, hroom], ⟨hplain, hshared⟩, ?_⟩
      simp [hline, Remark.shown, Sink.accepted, hroom]

/-- On a standard error that takes everything the remarks stand one behind the other. -/
theorem written_remarkAll {echoed : Bool} {c : Console} (hroom : c.stderr.room = none)
    (hecho : c.Echoes echoed) (rs : List Remark) :
    (c.remarkAll rs).stderr.written = c.stderr.written ++ rs.flatMap (Remark.shown echoed) := by
  induction rs generalizing c with
  | nil => simp [remarkAll]
  | cons said rs ih =>
    obtain ⟨hroom', hecho', hwritten⟩ := stderr_remark hroom hecho said
    have hrest := ih hroom' hecho'
    rw [hwritten, List.append_assoc] at hrest
    exact hrest

end Console

/-- A path names a file that holds an image. A blank path names nothing. -/
structure FileSystem.Holds (fs : FileSystem) (path : String) (data : Bytes) (i : Image) : Prop where
  not_blank : Text.isBlank path = false
  read_eq : fs.read path = .ok data
  parse_eq : Image.parse data = .ok i

theorem FileSystem.Holds.load_eq {fs : FileSystem} {path : String} {data : Bytes} {i : Image}
    (h : fs.Holds path data i) : fs.load path = .ok i :=
  load_eq_ok_iff.2 ⟨data, h.read_eq, h.parse_eq⟩

/-- How far a run came: it has loaded the image from these data, decoded its program and sent the
listing off. -/
inductive Progress where
  | nothing
  | loaded (data : Bytes) (i : Image)
  | decoded (data : Bytes) (i : Image) (p : Program)
  | finished (data : Bytes) (i : Image) (p : Program)
  deriving DecidableEq, Repr

/-- The ways a run can end, with how far it came. -/
inductive Course (files : FileSystem) (input output : String) :
    Except RunError Unit → Progress → Prop where
  | noImage : Text.isBlank input = true → Course files input output (.error .noImage) .nothing
  | unloadable {e : LoadError} : Text.isBlank input = false → files.load input = .error e →
      Course files input output (.error (.unloadable e)) .nothing
  | undecodable {data : Bytes} {i : Image} {f : DecodeFailure} : files.Holds input data i →
      Program.decode i.prg i.header.prgSize = .error f →
      Course files input output (.error (.undecodable f)) (.loaded data i)
  | outputFull {data : Bytes} {i : Image} {p : Program} : files.Holds input data i →
      Program.decode i.prg i.header.prgSize = .ok p → output = "" →
      Course files input output (.error .outputFull) (.decoded data i p)
  | unwritable {data : Bytes} {i : Image} {p : Program} {e : FileError} :
      files.Holds input data i → Program.decode i.prg i.header.prgSize = .ok p → output ≠ "" →
      files.write output p.output = .error e →
      Course files input output (.error (.unwritable e)) (.decoded data i p)
  | complete {data : Bytes} {i : Image} {p : Program} : files.Holds input data i →
      Program.decode i.prg i.header.prgSize = .ok p →
      Course files input output (.ok ()) (.finished data i p)

namespace Progress

/-- What is said once an image is loaded. -/
def imageRemarks (input : String) (header : Bool) (i : Image) : List Remark :=
  i.messages.map .logged ++ if header then [.note (Console.headerLine input i.header)] else []

/-- What is said about a listing that was sent off. -/
def outputRemarks (output : String) : List Remark :=
  if output = "" then [] else [.logged (Console.writtenMessage output)]

/-- What a run has said when it has come this far. -/
def remarks (input output : String) (header : Bool) : Progress → List Remark
  | nothing => []
  | loaded _ i => imageRemarks input header i
  | decoded _ i p => imageRemarks input header i ++ [.logged p.summary]
  | finished _ i p => imageRemarks input header i ++ [.logged p.summary] ++ outputRemarks output

end Progress

namespace Console

theorem loaded_eq (c : Console) (input : String) (header : Bool) (i : Image) :
    c.loaded input header i =
      ({ c with recorder := c.recorder.clear } : Console).remarkAll
        (Progress.imageRemarks input header i) := by
  rw [Progress.imageRemarks, remarkAll_append, remarkAll_logged]
  cases header <;> rfl

theorem decoded_eq (c : Console) (input : String) (header : Bool) (i : Image) (p : Program) :
    c.decoded input header i p =
      ({ c with recorder := c.recorder.clear } : Console).remarkAll
        (Progress.imageRemarks input header i ++ [.logged p.summary]) := by
  rw [decoded, loaded_eq, remarkAll_concat]
  rfl

section Decoded

variable {files : FileSystem} {input : String} {data : Bytes} {i : Image} {p : Program}

/-- Once the program is decoded, the listing is sent off or not, whatever the recorder. -/
theorem exists_course_of_decode_ok (hholds : files.Holds input data i)
    (hdecode : Program.decode i.prg i.header.prgSize = .ok p) (stdout : Sink) (output : String)
    (header : Bool) :
    ∃ result reached after shown, Course files input output result reached ∧
      ∀ r errors, (⟨files, r, stdout, errors⟩ : Console).run input output header =
        (result, (⟨after, r.clear, shown, errors⟩ : Console).remarkAll
          (reached.remarks input output header)) := by
  have hrun (r : Recorder) (errors : Option Sink) :
      (⟨files, r, stdout, errors⟩ : Console).run input output header =
        ((⟨files, r.clear, stdout, errors⟩ : Console).remarkAll
          (Progress.imageRemarks input header i ++ [.logged p.summary])).emit output p := by
    rw [run_of_decode_ok (c := ⟨files, r, stdout, errors⟩) hholds.not_blank hholds.load_eq hdecode,
      decoded_eq]
  by_cases hout : output = ""
  · by_cases hfits : stdout.fits p.output = true
    · refine ⟨_, _, files, stdout.write p.output, .complete hholds hdecode, fun r errors => ?_⟩
      rw [hrun, remarkAll_with ⟨files, r.clear, stdout, errors⟩ files (stdout.write p.output)]
      simp [emit, hout, hfits, Progress.remarks, Progress.outputRemarks]
    · refine ⟨_, _, files, stdout.write p.output, .outputFull hholds hdecode hout,
        fun r errors => ?_⟩
      rw [hrun, remarkAll_with ⟨files, r.clear, stdout, errors⟩ files (stdout.write p.output)]
      simp [emit, hout, hfits, Progress.remarks]
  · cases hwrite : files.write output p.output with
    | error e =>
      refine ⟨_, _, files, stdout, .unwritable hholds hdecode hout hwrite, fun r errors => ?_⟩
      rw [hrun]
      simp [emit, hout, hwrite, Progress.remarks]
    | ok after =>
      refine ⟨_, _, after, stdout.write (writtenNotice output), .complete hholds hdecode,
        fun r errors => ?_⟩
      rw [hrun, remarkAll_with ⟨files, r.clear, stdout, errors⟩ after
        (stdout.write (writtenNotice output))]
      simp only [emit, if_neg hout, files_remarkAll, stdout_remarkAll, hwrite, Progress.remarks,
        Progress.outputRemarks, remarkAll_concat, remark]

end Decoded

/-- A run is the same for all recorders and wherever standard error goes: result, files and standard
output are, and the same is said. -/
theorem exists_course (files : FileSystem) (stdout : Sink) (input output : String)
    (header : Bool) :
    ∃ result reached after shown, Course files input output result reached ∧
      ∀ r errors, (⟨files, r, stdout, errors⟩ : Console).run input output header =
        (result, (⟨after, r.clear, shown, errors⟩ : Console).remarkAll
          (reached.remarks input output header)) := by
  cases hblank : Text.isBlank input with
  | true => exact ⟨_, _, _, _, .noImage hblank, fun r errors => run_of_blank hblank output header⟩
  | false =>
    cases hload : files.load input with
    | error e =>
      exact ⟨_, _, _, _, .unloadable hblank hload, fun r errors =>
        run_of_load_error (c := ⟨files, r, stdout, errors⟩) hblank hload output header⟩
    | ok i =>
      obtain ⟨data, hread, hparse⟩ := FileSystem.load_eq_ok_iff.1 hload
      have hholds : files.Holds input data i := ⟨hblank, hread, hparse⟩
      cases hdecode : Program.decode i.prg i.header.prgSize with
      | error f =>
        refine ⟨_, _, files, stdout, .undecodable hholds hdecode, fun r errors => ?_⟩
        rw [run_of_decode_error (c := ⟨files, r, stdout, errors⟩) hblank hload hdecode, loaded_eq]
        rfl
      | ok p => exact exists_course_of_decode_ok hholds hdecode stdout output header

end Console

end Disasm6502
