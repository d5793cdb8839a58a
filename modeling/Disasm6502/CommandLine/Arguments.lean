import Disasm6502.CommandLine.Options

/-!
A parser for options written with dashes. Arguments are read in order and an option may take the
argument behind it, which is then out of the game: it is skipped when its turn comes, and the other
letters of the same cluster see it as empty. Empty arguments are skipped; the first one left over is
the positional one.
-/

namespace Disasm6502.CommandLine

/-- Errors name the option as it was written, dashes included. -/
inductive ArgumentError where
  | noArguments
  | missingParameter (option : String)
  | unknownOption (option : String)
  | emptyLongOption
  deriving DecidableEq, Repr

def ArgumentError.message : ArgumentError → Bytes
  | noArguments => utf8 "no arguments provided"
  | missingParameter option => utf8 option ++ utf8 ": missing option parameter"
  | unknownOption option => utf8 option ++ utf8 ": unknown option"
  | emptyLongOption => utf8 "long option without a string"

namespace Declaration

def ofLetter? (d : Declaration) (c : Char) : Option OptionDeclaration :=
  d.allOptions.find? (·.letter = c)

def ofName? (d : Declaration) (name : List Char) : Option OptionDeclaration :=
  d.allOptions.find? (·.name.toList = name)

end Declaration

/-- What has been set so far: the options by name, the latest first, and the positional argument. -/
structure Settings where
  options : List (String × OptionValue)
  positional : String
  deriving DecidableEq, Repr

namespace Settings

def initial : Settings := ⟨[], ""⟩

def get? (s : Settings) (o : OptionDeclaration) : Option OptionValue := s.options.lookup o.name

def set (s : Settings) (o : OptionDeclaration) (value : OptionValue) : Settings :=
  { s with options := (o.name, value) :: s.options }

/-- An argument that is no option: the first is the positional one, the others are ignored. -/
def setPositional (s : Settings) (value : String) : Settings :=
  if s.positional = "" then { s with positional := value } else s

end Settings

/-- The argument behind the one being read, and whether it has been taken. -/
structure Lookahead where
  following : Option String
  taken : Bool
  deriving DecidableEq, Repr

/-- Once taken, the argument reads as empty. -/
def Lookahead.spent : Lookahead := ⟨some "", true⟩

/-- The text before the first equals sign and the text behind it. -/
def splitValue : List Char → List Char × List Char
  | [] => ([], [])
  | c :: rest =>
    if c = '=' then ([], rest)
    else ((c :: (splitValue rest).1), (splitValue rest).2)

/-- A flag without a value of its own: a word for on or off behind it decides, and is taken. -/
def readFlag (s : Settings) (next : Lookahead) (o : OptionDeclaration) : Settings × Lookahead :=
  match next.following.bind boolWord? with
  | some value => (s.set o (.flag value), .spent)
  | none => (s.set o (.flag true), next)

/-- A text without a value of its own is the argument behind it, whatever that is. -/
def readText (s : Settings) (next : Lookahead) (o : OptionDeclaration) (written : String) :
    Except (Rejection ArgumentError) (Settings × Lookahead) :=
  match next.following with
  | some value => .ok (s.set o (.text value), .spent)
  | none => .error (.error (.missingParameter written))

section Declared

variable (d : Declaration)

/-- An option written as two dashes and a name. -/
def readLong (s : Settings) (next : Lookahead) (text : List Char) :
    Except (Rejection ArgumentError) (Settings × Lookahead) :=
  if text = [] then .error (.error .emptyLongOption)
  else
    let (name, value) := splitValue text
    let written := "--" ++ String.ofList name
    match d.ofName? name with
    | none => .error (.error (.unknownOption written))
    | some o =>
      match o.default with
      | .flag _ =>
        match boolWord? (String.ofList value) with
        | some b => .ok (s.set o (.flag b), next)
        | none => .ok (readFlag s next o)
      | .text _ =>
        if value = [] then readText s next o written
        else .ok (s.set o (.text (String.ofList value)), next)

/-- The value attached to a letter: it counts only for a letter that stands alone. -/
def attached? (name value : List Char) (c : Char) : Option String :=
  if name = [c] ∧ value ≠ [] then some (String.ofList value) else none

/-- One letter of a cluster. A value attached to the letter of a text that has not been set before
stops the program. -/
def readLetter (s : Settings) (next : Lookahead) (name value : List Char) (c : Char) :
    Except (Rejection ArgumentError) (Settings × Lookahead) :=
  let written := "-" ++ String.singleton c
  match d.ofLetter? c with
  | none => .error (.error (.unknownOption written))
  | some o =>
    match o.default, attached? name value c with
    | .flag _, some word => .ok (s.set o (.flag ((boolWord? word).getD false)), next)
    | .flag _, none => .ok (readFlag s next o)
    | .text _, some word =>
      match s.get? o with
      | none => .error .crash
      | some _ => .ok (s.set o (.text word), next)
    | .text _, none => readText s next o written

def readLetters (name value : List Char) :
    List Char → Settings → Lookahead → Except (Rejection ArgumentError) (Settings × Lookahead)
  | [], s, next => .ok (s, next)
  | c :: rest, s, next =>
    match readLetter d s next name value c with
    | .error e => .error e
    | .ok (s, next) => readLetters name value rest s next

/-- One dash and letters. A value is cut off; an equals sign without a value counts as a letter. -/
def readCluster (s : Settings) (next : Lookahead) (text : List Char) :
    Except (Rejection ArgumentError) (Settings × Lookahead) :=
  let (name, value) := splitValue text
  readLetters d name value (if value = [] then text else name) s next

def readArgument (s : Settings) (next : Lookahead) (argument : String) :
    Except (Rejection ArgumentError) (Settings × Lookahead) :=
  match argument.toList with
  | ['-'] => .error .crash
  | '-' :: '-' :: text => readLong d s next text
  | '-' :: text => readCluster d s next text
  | _ => .ok (s.setPositional argument, next)

/-- Read the arguments from left to right; `taken` says that the first one belongs to the option
before it. -/
def readAll (s : Settings) (taken : Bool) :
    List String → Except (Rejection ArgumentError) Settings
  | [] => .ok s
  | argument :: rest =>
    if taken ∨ argument = "" then readAll s false rest
    else
      match readArgument d s ⟨rest.head?, false⟩ argument with
      | .error e => .error e
      | .ok (s, next) => readAll s next.taken rest

end Declared

/-- Settings together with the declaration that says what holds where nothing has been set. -/
structure Reading where
  declaration : Declaration
  settings : Settings
  deriving DecidableEq, Repr

namespace Reading

/-- Read arguments on top of what has been set. -/
def read (d : Declaration) (s : Settings) (arguments : List String) :
    Except (Rejection ArgumentError) Reading :=
  match readAll d s false arguments with
  | .error e => .error e
  | .ok s => .ok ⟨d, s⟩

def option? (r : Reading) (name : String) : Option OptionValue :=
  match r.declaration.allOptions.find? (·.name = name) with
  | none => none
  | some o => some ((r.settings.get? o).getD o.default)

def getString (r : Reading) (name : String) : String :=
  match r.option? name with
  | some (.text s) => s
  | _ => ""

def getBool (r : Reading) (name : String) : Bool :=
  match r.option? name with
  | some (.flag b) => b
  | _ => false

def getPositional (r : Reading) (name : String) : String :=
  if name ≠ r.declaration.positional.name then ""
  else if r.settings.positional = "" then r.declaration.positional.default
  else r.settings.positional

end Reading

def OptionDeclaration.helpLine (o : OptionDeclaration) : String :=
  "\t-" ++ String.singleton o.letter ++ ", --" ++ o.name ++ "\t" ++ o.help ++
    (match o.default with
      | .flag b => if o = helpOption then "" else " (default: " ++ toString b ++ ")"
      | .text _ => "") ++ "\n"

def Declaration.helpText (d : Declaration) : String :=
  "Usage:\n" ++
  "  " ++ d.program ++ " [OPTIONS]... [" ++ d.positional.name ++ "]\n" ++
  "\n" ++
  "Main options:\n" ++
  String.join (d.allOptions.map OptionDeclaration.helpLine) ++
  "\n" ++
  "\n" ++
  "Positional arguments:\n" ++
  "\t" ++ d.positional.name ++ "\t" ++ d.positional.help ++ "\n" ++
  "\n"

/-- The parser that the command uses. -/
def dashParser : ArgumentParser where
  Values := Reading
  Error := ArgumentError
  parse d arguments :=
    if arguments = [] then .error (.error .noArguments) else Reading.read d .initial arguments
  getString := Reading.getString
  getBool := Reading.getBool
  getPositional := Reading.getPositional
  isNoArguments e := e = .noArguments
  message := ArgumentError.message
  helpText d := utf8 d.helpText

end Disasm6502.CommandLine
