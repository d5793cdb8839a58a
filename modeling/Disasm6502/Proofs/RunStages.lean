import Disasm6502.CommandLine.Run

/-!
The stages of a run. Up to the point where the listing is sent off, a run only reads files and only
changes the recorder and standard error, and what it does there does not depend on where the listing
goes. The results of the four ways a run can go are `run_of_blank`, `run_of_load_error`,
`run_of_decode_error` and `run_of_decode_ok`; `run_cases` says that there are no others.
-/

namespace Disasm6502

namespace FileSystem

/-- The image in the file that a path names, as far as the files decide it. -/
def load (fs : FileSystem) (path : String) : Except LoadError Image :=
  match fs.read path with
  | .error e => .error (.unreadable e)
  | .ok data =>
    match Image.parse data with
    | .error e => .error (.malformed path e)
    | .ok image => .ok image

theorem load_eq_ok_iff {fs : FileSystem} {path : String} {image : Image} :
    fs.load path = .ok image ↔ ∃ data, fs.read path = .ok data ∧ Image.parse data = .ok image := by
  unfold load
  cases hread : fs.read path with
  | error e => simp
  | ok data => cases hparse : Image.parse data <;> simp [hparse]

end FileSystem

namespace Recorder

theorem loadImage_eq (r : Recorder) (files : FileSystem) (path : String) :
    r.loadImage files path = r.logging Image.messages (files.load path) := by
  unfold loadImage FileSystem.load parseImage
  cases files.read path with
  | error e => rfl
  | ok data =>
    dsimp only
    cases Image.parse data <;> rfl

end Recorder

namespace Console

/-- The console once an image is loaded: a new log with what there is to say about the image, and
its header on standard error if that is asked for. -/
def loaded (c : Console) (input : String) (header : Bool) (image : Image) : Console :=
  let c := { c with recorder := c.recorder.clear.recordAll image.messages }
  if header then c.writeError (headerLine input image.header) else c

/-- The console once the program of the image is decoded too. -/
def decoded (c : Console) (input : String) (header : Bool) (image : Image) (p : Program) :
    Console :=
  let c := c.loaded input header image
  { c with recorder := c.recorder.record p.summary }

@[simp] theorem files_loaded (c : Console) (input : String) (header : Bool) (image : Image) :
    (c.loaded input header image).files = c.files := by
  cases header <;> simp [loaded]

@[simp] theorem stdout_loaded (c : Console) (input : String) (header : Bool) (image : Image) :
    (c.loaded input header image).stdout = c.stdout := by
  cases header <;> simp [loaded]

@[simp] theorem files_decoded (c : Console) (input : String) (header : Bool) (image : Image)
    (p : Program) : (c.decoded input header image p).files = c.files := by
  simp [decoded]

@[simp] theorem stdout_decoded (c : Console) (input : String) (header : Bool) (image : Image)
    (p : Program) : (c.decoded input header image p).stdout = c.stdout := by
  simp [decoded]

/-! ## The ways a run can go -/

section Outcomes

variable {c : Console} {input : String} {image : Image}

theorem run_of_blank (h : Text.isBlank input = true) (output : String) (header : Bool) :
    c.run input output header = (.error .noImage, { c with recorder := c.recorder.clear }) := by
  simp only [run, h, if_true]

/-- If an image is named at all, a run goes by what is loaded. -/
theorem run_of_not_blank (h : Text.isBlank input = false) (output : String) (header : Bool) :
    c.run input output header =
      match c.files.load input with
      | .error e => (.error (.unloadable e), { c with recorder := c.recorder.clear })
      | .ok image => (c.loaded input header image).disassembleImage output image := by
  simp only [run, h, Bool.false_eq_true, if_false, Recorder.loadImage_eq]
  cases c.files.load input <;> rfl

theorem run_of_load_error {e : LoadError} (h : Text.isBlank input = false)
    (hload : c.files.load input = .error e) (output : String) (header : Bool) :
    c.run input output header =
      (.error (.unloadable e), { c with recorder := c.recorder.clear }) := by
  rw [run_of_not_blank h, hload]

theorem run_of_decode_error {f : DecodeFailure} (h : Text.isBlank input = false)
    (hload : c.files.load input = .ok image)
    (hdecode : Program.decode image.prg image.header.prgSize = .error f) (output : String)
    (header : Bool) :
    c.run input output header = (.error (.undecodable f), c.loaded input header image) := by
  rw [run_of_not_blank h, hload]
  simp only [disassembleImage, Recorder.decodeProgram, hdecode, Recorder.logging]

theorem run_of_decode_ok {p : Program} (h : Text.isBlank input = false)
    (hload : c.files.load input = .ok image)
    (hdecode : Program.decode image.prg image.header.prgSize = .ok p) (output : String)
    (header : Bool) :
    c.run input output header = (c.decoded input header image p).emit output p := by
  rw [run_of_not_blank h, hload]
  simp only [disassembleImage, Recorder.decodeProgram, hdecode, Recorder.logging]
  rfl

end Outcomes

/-- A run ends before it writes, with an error and files and standard output as they were, or it
comes to the point where the listing is sent off. Which of the two it is does not depend on where
the listing goes. -/
theorem run_cases (c : Console) (input : String) (header : Bool) :
    (∃ e after, after.files = c.files ∧ after.stdout = c.stdout ∧
        ∀ output, c.run input output header = (.error e, after)) ∨
      ∃ image p, c.files.load input = .ok image ∧
        Program.decode image.prg image.header.prgSize = .ok p ∧
        ∀ output, c.run input output header = (c.decoded input header image p).emit output p := by
  let cleared : Console := { c with recorder := c.recorder.clear }
  cases hblank : Text.isBlank input with
  | true => exact .inl ⟨_, cleared, rfl, rfl, fun output => run_of_blank hblank output header⟩
  | false =>
    cases hload : c.files.load input with
    | error e =>
      exact .inl ⟨_, cleared, rfl, rfl,
        fun output => run_of_load_error hblank hload output header⟩
    | ok image =>
      cases hdecode : Program.decode image.prg image.header.prgSize with
      | error f =>
        exact .inl ⟨_, _, files_loaded .., stdout_loaded ..,
          fun output => run_of_decode_error hblank hload hdecode output header⟩
      | ok p =>
        exact .inr ⟨image, p, rfl, hdecode,
          fun output => run_of_decode_ok hblank hload hdecode output header⟩

end Console

end Disasm6502
