import Disasm6502.Text.Bytes

/-!
What can be said on the command line. Options are declared as data, reading arguments by them is
left to an `ArgumentParser`, and what the parser has read is asked for by name.
-/

namespace Disasm6502.CommandLine

/-- What an option can be set to. -/
inductive OptionValue where
  | text (s : String)
  | flag (b : Bool)
  deriving DecidableEq, Repr

def OptionValue.isFlag : OptionValue → Bool
  | text _ => false
  | flag _ => true

/-- An option; its values are of the kind of its default. -/
structure OptionDeclaration where
  letter : Char
  name : String
  help : String
  default : OptionValue
  required : Bool
  deriving DecidableEq, Repr

/-- An argument that is known by where it stands. -/
structure PositionalDeclaration where
  name : String
  help : String
  default : String
  required : Bool
  deriving DecidableEq, Repr

/-- What a program says about its command line. -/
structure Declaration where
  program : String
  /-- Whether there is an option that asks for the help text. -/
  defaultHelp : Bool
  options : List OptionDeclaration
  positional : PositionalDeclaration
  deriving DecidableEq, Repr

/-- The option that `defaultHelp` adds. -/
def helpOption : OptionDeclaration := ⟨'h', "help", "Print this help message.", .flag false, false⟩

def Declaration.allOptions (d : Declaration) : List OptionDeclaration :=
  if d.defaultHelp then helpOption :: d.options else d.options

def outputOption : OptionDeclaration :=
  ⟨'o', "output", "Write the listing to a file instead of stdout.", .text "", false⟩

def logOption : OptionDeclaration :=
  ⟨'l', "log", "Write the log to a file when done.", .text "", false⟩

def headerOption : OptionDeclaration :=
  ⟨'H', "header", "Print the cartridge header to stderr.", .flag false, false⟩

def verboseOption : OptionDeclaration :=
  ⟨'v', "verbose", "Echo log messages to stderr.", .flag false, false⟩

/-- The command line of the disassembler. -/
def declaration : Declaration where
  program := "nesdis"
  defaultHelp := true
  options := [outputOption, logOption, headerOption, verboseOption]
  positional := ⟨"ROM", "iNES cartridge image to disassemble.", "", true⟩

/-- Why a command line is not accepted. -/
inductive Rejection (ε : Type) where
  | error (e : ε)
  /-- The program stops abnormally. -/
  | crash
  deriving DecidableEq, Repr

/-- What reads a command line. -/
structure ArgumentParser where
  /-- What the options and the positional argument are set to after reading. -/
  Values : Type
  Error : Type
  parse : Declaration → List String → Except (Rejection Error) Values
  getString : Values → String → String
  getBool : Values → String → Bool
  getPositional : Values → String → String
  /-- Whether the error says that there is nothing to read. -/
  isNoArguments : Error → Bool
  message : Error → Bytes
  helpText : Declaration → Bytes

/-- What a command line asks for. -/
structure Config where
  input : String
  output : String
  logFile : String
  header : Bool
  verbose : Bool
  help : Bool
  deriving DecidableEq, Repr

def ArgumentParser.config (P : ArgumentParser) (v : P.Values) : Config where
  input := P.getPositional v "ROM"
  output := P.getString v "output"
  logFile := P.getString v "log"
  header := P.getBool v "header"
  verbose := P.getBool v "verbose"
  help := P.getBool v "help"

/-- The configuration that a command line stands for. -/
def parseArguments (P : ArgumentParser) (d : Declaration) (arguments : List String) :
    Except (Rejection P.Error) Config :=
  match P.parse d arguments with
  | .error e => .error e
  | .ok v => .ok (P.config v)

/-- The words that turn a flag on or off, in any case. -/
def boolWord? (word : String) : Option Bool :=
  let lower := word.toList.map Char.toLower
  if ["true", "yes", "on", "1", "t"].any (·.toList = lower) then some true
  else if ["false", "no", "off", "0", "f"].any (·.toList = lower) then some false
  else none

end Disasm6502.CommandLine
