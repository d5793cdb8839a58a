import Disasm6502.Files.FileSystem
import Disasm6502.Image.Basic
import Disasm6502.Log.Recorder
import Disasm6502.Program.Listing
import Disasm6502.Text.Blank

/-!
Runs: from a cartridge image in a file to the listing of its PRG-ROM on standard output or in
another file. Everything a run can touch is in a `Console`. A run that fails before it writes
leaves files and standard output as they were.
-/

namespace Disasm6502

namespace Recorder

/-- Log what there is to say about a result; failures are not logged. -/
def logging {ε α : Type} (r : Recorder) (messages : α → List Message) :
    Except ε α → Except ε α × Recorder
  | .ok a => (.ok a, r.recordAll (messages a))
  | .error e => (.error e, r)

def parseImage (r : Recorder) (data : Bytes) : Except ImageError Image × Recorder :=
  r.logging Image.messages (Image.parse data)

def decodeProgram (r : Recorder) (code : Bytes) (limit : Int) :
    Except DecodeFailure Program × Recorder :=
  r.logging (fun p => [p.summary]) (Program.decode code limit)

/-- The listing of all of the code. There is nothing to log about no code. -/
def disassemble (r : Recorder) (code : Bytes) : Except DecodeFailure Bytes × Recorder :=
  if code.isEmpty then (.ok [], r)
  else
    match r.decodeProgram code code.length with
    | (.error f, r) => (.error f, r)
    | (.ok p, r) => (.ok p.listing, r)

/-- The log has no influence on the listing. -/
theorem fst_disassemble (r : Recorder) (code : Bytes) :
    (r.disassemble code).1 = Disasm6502.disassemble code := by
  unfold disassemble Disasm6502.disassemble decodeProgram
  split
  · rfl
  · cases Program.decode code code.length <;> rfl

end Recorder

inductive LoadError where
  | unreadable (error : FileError)
  | malformed (path : String) (error : ImageError)
  deriving DecidableEq, Repr

def LoadError.message : LoadError → Bytes
  | unreadable error => utf8 "reading cartridge: " ++ error.message
  | malformed path error => utf8 path ++ utf8 ": " ++ error.message

/-- The image in the file that a path names. -/
def Recorder.loadImage (r : Recorder) (files : FileSystem) (path : String) :
    Except LoadError Image × Recorder :=
  match files.read path with
  | .error e => (.error (.unreadable e), r)
  | .ok data =>
    match r.parseImage data with
    | (.error e, r) => (.error (.malformed path e), r)
    | (.ok image, r) => (.ok image, r)

inductive RunError where
  | noImage
  | unloadable (error : LoadError)
  | undecodable (failure : DecodeFailure)
  | unwritable (error : FileError)
  /-- Standard output did not take the whole listing. -/
  | outputFull
  deriving DecidableEq, Repr

def RunError.message : RunError → Bytes
  | noImage => utf8 "no cartridge image given"
  | unloadable error => error.message
  | undecodable failure => failure.message
  | unwritable error => utf8 "writing listing: " ++ error.message
  | outputFull => utf8 "sink full"

/-- What a run works on. -/
structure Console where
  files : FileSystem
  recorder : Recorder
  stdout : Sink
  /-- Standard error; `none` if it is the stream that the recorder echoes to. -/
  errors : Option Sink
  deriving DecidableEq, Repr

namespace Console

def stderr (c : Console) : Sink := c.errors.getD c.recorder.stream

def log (c : Console) : Log := c.recorder.log

def writeError (c : Console) (text : Bytes) : Console :=
  match c.errors with
  | some errors => { c with errors := some (errors.write text) }
  | none => { c with recorder := { c.recorder with stream := c.recorder.stream.write text } }

def headerLine (input : String) (h : Header) : Bytes :=
  utf8 input ++ utf8 ": " ++ h.text ++ [newline]

/-- What is logged about a listing that went to a file. -/
def writtenMessage (output : String) : Message :=
  ⟨utf8 "nesdis", utf8 "listing written to " ++ utf8 output⟩

def writtenNotice (output : String) : Bytes :=
  utf8 "Disassembly written to " ++ utf8 output ++ [newline]

/-- Send the listing to the file that `output` names, or to standard output if it names none. -/
def emit (c : Console) (output : String) (p : Program) : Except RunError Unit × Console :=
  let text := p.output
  if output = "" then
    (if c.stdout.fits text then .ok () else .error .outputFull,
      { c with stdout := c.stdout.write text })
  else
    match c.files.write output text with
    | .error e => (.error (.unwritable e), c)
    | .ok files =>
      (.ok (), { c with
        files := files
        recorder := c.recorder.record (writtenMessage output)
        stdout := c.stdout.write (writtenNotice output) })

/-- Decode the PRG-ROM of a loaded image and send its listing off. -/
def disassembleImage (c : Console) (output : String) (image : Image) :
    Except RunError Unit × Console :=
  match c.recorder.decodeProgram image.prg image.header.prgSize with
  | (.error f, r) => (.error (.undecodable f), { c with recorder := r })
  | (.ok p, r) => { c with recorder := r }.emit output p

/-- Disassemble the image that `input` names, with an empty log to start with. -/
def run (c : Console) (input output : String) (header : Bool) : Except RunError Unit × Console :=
  let c := { c with recorder := c.recorder.clear }
  if Text.isBlank input then (.error .noImage, c)
  else
    match c.recorder.loadImage c.files input with
    | (.error e, r) => (.error (.unloadable e), { c with recorder := r })
    | (.ok image, r) =>
      let c := { c with recorder := r }
      let c := if header then c.writeError (headerLine input image.header) else c
      c.disassembleImage output image

/-- Write the log to a file. -/
def writeLog (c : Console) (path : String) : Except FileError Console :=
  match c.files.write path c.log.text with
  | .error e => .error e
  | .ok files => .ok { c with files := files }

def logFileMessage (e : FileError) : Bytes := utf8 "creating log file: " ++ e.message

section WriteError

variable (c : Console) (text : Bytes)

@[simp] theorem files_writeError : (c.writeError text).files = c.files := by
  unfold writeError; split <;> rfl

@[simp] theorem stdout_writeError : (c.writeError text).stdout = c.stdout := by
  unfold writeError; split <;> rfl

@[simp] theorem log_writeError : (c.writeError text).log = c.log := by
  unfold writeError; split <;> rfl

@[simp] theorem echo_writeError : (c.writeError text).recorder.echo = c.recorder.echo := by
  unfold writeError; split <;> rfl

@[simp] theorem stderr_writeError : (c.writeError text).stderr = c.stderr.write text := by
  unfold writeError stderr; split <;> simp [*]

@[simp] theorem errors_writeError_eq_none_iff :
    (c.writeError text).errors = none ↔ c.errors = none := by
  unfold writeError; split <;> simp [*]

end WriteError

end Console

end Disasm6502
