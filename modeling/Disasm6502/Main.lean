import Disasm6502.CommandLine.Arguments
import Disasm6502.CommandLine.Execute

/-!
The command line program: it reads what the arguments name from disk, carries out the command on
that, and writes back the files that have changed.
-/

namespace Disasm6502

/-- What is on disk at a path. -/
def nodeOnDisk? (path : String) : IO (Option Node) := do
  try
    if ← (← IO.FS.realPath path).isDir then return some .directory
    return some (.file (← IO.FS.readBinFile path).toList)
  catch _ => return none

/-- Add what is on disk along a path. -/
def readAlong (files : FileSystem) (path : String) : IO FileSystem := do
  let mut files := files
  let mut place := Path.start path
  for name in Path.names path do
    place := place.enter name
    match ← nodeOnDisk? place.path with
    | some .directory => files := files.addDirectory place
    | some (.file content) => files := files.addFile place content
    | none => pure ()
  return files

/-- The paths that a command line names. -/
def namedPaths (arguments : List String) : List String :=
  match CommandLine.parseArguments CommandLine.dashParser CommandLine.declaration arguments with
  | .ok config => [config.input, config.output, config.logFile]
  | .error _ => []

def writeBytes (stream : IO.FS.Stream) (bytes : Bytes) : IO Unit := do
  stream.write (ByteArray.mk bytes.toArray)
  stream.flush

end Disasm6502

open Disasm6502

def main (arguments : List String) : IO UInt32 := do
  let stderr ← IO.getStderr
  let echo := if ← stderr.isTty then Echo.highlighted else Echo.plain
  let files ← (namedPaths arguments).foldlM readAlong FileSystem.empty
  let console := ⟨files, .silent, .unlimited, some .unlimited⟩
  match CommandLine.execute CommandLine.dashParser arguments echo console with
  | none => return 2
  | some (status, console) =>
    for (place, content) in console.files.changesSince files do
      IO.FS.writeBinFile place.path (ByteArray.mk content.toArray)
    writeBytes (← IO.getStdout) console.stdout.written
    writeBytes stderr console.stderr.written
    return status.toUInt32
