import Disasm6502.Files.Path
import Disasm6502.Text.Bytes

/-!
A file system as a value: which directories exist and what the files hold. Reading and writing
follow a path name by name; a failure changes nothing, and a write replaces the content of one file.
-/

namespace Disasm6502

/-- Why a file cannot be reached. -/
inductive FileCause where
  | notFound
  | isDirectory
  | notDirectory
  | nameTooLong
  | invalidPath
  deriving DecidableEq, Repr

inductive FileOperation where
  | opening
  | reading
  deriving DecidableEq, Repr

structure FileError where
  operation : FileOperation
  path : String
  cause : FileCause
  deriving DecidableEq, Repr

def FileCause.text : FileCause → String
  | notFound => "no such file or directory"
  | isDirectory => "is a directory"
  | notDirectory => "not a directory"
  | nameTooLong => "file name too long"
  | invalidPath => "invalid argument"

def FileOperation.text : FileOperation → String
  | opening => "open"
  | reading => "read"

def FileError.message (e : FileError) : Bytes :=
  utf8 e.operation.text ++ utf8 " " ++ utf8 e.path ++ utf8 ": " ++ utf8 e.cause.text

structure FileSystem where
  /-- Directories below the working directory or the root. -/
  directories : List Place
  files : List (Place × Bytes)
  deriving DecidableEq, Repr

inductive Node where
  | directory
  | file (content : Bytes)
  deriving DecidableEq, Repr

namespace FileSystem

def empty : FileSystem := ⟨[], []⟩

/-- A directory exists with all directories above it; the working directory, those above it and the
root always exist. -/
def isDirectory (fs : FileSystem) (p : Place) : Bool :=
  p.all (· = "..") || p = .root || fs.directories.any p.isPrefixOf

def content? (fs : FileSystem) (p : Place) : Option Bytes := fs.files.lookup p

def node? (fs : FileSystem) (p : Place) : Option Node :=
  if fs.isDirectory p then some .directory else (fs.content? p).map .file

/-- Follow names from a place. A name can only be looked up in a directory; whether the last one
exists is left open. -/
def walk (fs : FileSystem) (p : Place) : List String → Except FileCause Place
  | [] => .ok p
  | name :: rest =>
    match fs.node? p with
    | none => .error .notFound
    | some (.file _) => .error .notDirectory
    | some .directory =>
      if Path.maxName < name.utf8ByteSize then .error .nameTooLong
      else fs.walk (p.enter name) rest

/-- Follow some of the names of a path, provided that it can be a path at all. -/
def follow (fs : FileSystem) (path : String) (names : List String) : Except FileCause Place :=
  if path.toList.contains (Char.ofNat 0) then .error .invalidPath
  else if path = "" then .error .notFound
  else if Path.maxPath < path.utf8ByteSize then .error .nameTooLong
  else fs.walk (Path.start path) names

/-- The place a path names. -/
def locate (fs : FileSystem) (path : String) : Except FileCause Place :=
  fs.follow path (Path.names path)

/-- The names that lead to the directory in which the last name of a path is looked up. -/
def parentNames (path : String) : List String :=
  ((Path.names path).reverse.dropWhile (· = "")).tail.reverse ++ [""]

/-- The place at which a path names a file to be written. A path that ends in a slash is refused as
a directory once the directories that lead to it exist. -/
def locateTarget (fs : FileSystem) (path : String) : Except FileCause Place :=
  if Path.namesDirectory path then
    match fs.follow path (parentNames path) with
    | .error c => .error c
    | .ok _ => .error .isDirectory
  else
    match fs.locate path with
    | .error c => .error c
    | .ok p => if fs.isDirectory p then .error .isDirectory else .ok p

/-- The content of the file that a path names. -/
def read (fs : FileSystem) (path : String) : Except FileError Bytes :=
  match fs.locate path with
  | .error c => .error ⟨.opening, path, c⟩
  | .ok p =>
    match fs.node? p with
    | none => .error ⟨.opening, path, .notFound⟩
    | some .directory => .error ⟨.reading, path, .isDirectory⟩
    | some (.file content) => .ok content

/-- The files after one is given a content. -/
def replace (p : Place) (content : Bytes) : List (Place × Bytes) → List (Place × Bytes)
  | [] => [(p, content)]
  | (q, old) :: rest => if q = p then (p, content) :: rest else (q, old) :: replace p content rest

/-- Give the file that a path names a content; it need not exist before. -/
def write (fs : FileSystem) (path : String) (content : Bytes) : Except FileError FileSystem :=
  match fs.locateTarget path with
  | .error c => .error ⟨.opening, path, c⟩
  | .ok p => .ok { fs with files := replace p content fs.files }

/-- Make a directory, with those above it. -/
def addDirectory (fs : FileSystem) (p : Place) : FileSystem :=
  { fs with directories := p :: fs.directories }

/-- Make a file in a directory that is made with it. -/
def addFile (fs : FileSystem) (p : Place) (content : Bytes) : FileSystem :=
  { fs.addDirectory p.dropLast with files := replace p content fs.files }

/-- The files that are new or have another content than before. -/
def changesSince (fs before : FileSystem) : List (Place × Bytes) :=
  fs.files.filter fun (p, content) => before.content? p != some content

theorem lookup_cons_eq (q r : Place) (content : Bytes) (files : List (Place × Bytes)) :
    ((r, content) :: files).lookup q = if q = r then some content else files.lookup q := by
  by_cases h : q = r
  · simp [h]
  · have : (q == r) = false := by simp [h]
    simp [List.lookup_cons, this, h]

theorem lookup_replace (p q : Place) (content : Bytes) (files : List (Place × Bytes)) :
    (replace p content files).lookup q = if q = p then some content else files.lookup q := by
  induction files with
  | nil => simp [replace, lookup_cons_eq]
  | cons f files ih =>
    obtain ⟨r, old⟩ := f
    by_cases hr : r = p
    · by_cases h : q = p <;> simp [replace, lookup_cons_eq, hr, h]
    · by_cases hq : q = r
      · subst hq; simp [replace, hr]
      · simp [replace, lookup_cons_eq, hr, hq, ih]

/-- A write shows at the place written to and nowhere else. -/
theorem content?_write {fs after : FileSystem} {path : String} {content : Bytes} {p : Place}
    (target : fs.locateTarget path = .ok p) (written : fs.write path content = .ok after)
    (q : Place) : after.content? q = if q = p then some content else fs.content? q := by
  simp only [write, target, Except.ok.injEq] at written
  subst written
  exact lookup_replace p q content fs.files

end FileSystem

end Disasm6502
