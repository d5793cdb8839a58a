import Disasm6502.CommandLine.Options
import Disasm6502.CommandLine.Run

/-!
The whole command: arguments, run, log file and exit status. A verbose command echoes the log as it
grows; a quiet one shows the end of the log when the run has failed.
-/

namespace Disasm6502.CommandLine

/-- How many log entries a failed quiet run shows. -/
def failureContext : Int := 4

def errorLine (text : Bytes) : Bytes := utf8 "Error: " ++ text ++ [newline]

def failureLine (e : RunError) : Bytes := utf8 "Disassembly error: " ++ e.message ++ [newline]

/-- Save the log if a file is named for it. A failure is reported and has no other consequence. -/
def saveLog (config : Config) (c : Console) : Console :=
  if config.logFile = "" then c
  else
    match c.writeLog config.logFile with
    | .ok c => c
    | .error e => c.writeError (errorLine (Console.logFileMessage e))

/-- Exit status and console at the end of a run. -/
def conclude (config : Config) : Except RunError Unit → Console → UInt8 × Console
  | .ok _, c => (0, c)
  | .error e, c =>
    let c := c.writeError (failureLine e)
    (1, if config.verbose then c else c.writeError (c.log.tail failureContext))

/-- A verbose command echoes its log to standard error. -/
def listening (config : Config) (echo : Echo) (c : Console) : Console :=
  if config.verbose then
    { c with recorder := c.recorder.setEcho echo c.stderr, errors := none }
  else c

/-- Carry out a configuration. -/
def perform (config : Config) (echo : Echo) (c : Console) : UInt8 × Console :=
  let (result, c) := (listening config echo c).run config.input config.output config.header
  conclude config result (saveLog config c)

def printHelp (P : ArgumentParser) (c : Console) : Console :=
  { c with stdout := c.stdout.write (P.helpText declaration) }

/-- Carry out a command line; `echo` is how a verbose command echoes its log. The result is `none`
if the program stops abnormally. -/
def execute (P : ArgumentParser) (arguments : List String) (echo : Echo) (c : Console) :
    Option (UInt8 × Console) :=
  match parseArguments P declaration arguments with
  | .error .crash => none
  | .error (.error e) =>
    if P.isNoArguments e then some (0, printHelp P c)
    else some (1, c.writeError (errorLine (P.message e)))
  | .ok config => some (if config.help then (0, printHelp P c) else perform config echo c)

end Disasm6502.CommandLine
