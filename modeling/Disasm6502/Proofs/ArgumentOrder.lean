import Mathlib.Data.List.Pairwise
import Disasm6502.CommandLine.Arguments

/-!
The order of a command line. It consists of parts that keep together: the input, a flag, or a text
option with its value. The parser is any one that keeps the rules of `Documented`; `read_part` says
what it makes of one part, whatever stands behind it as long as that is no word for on or off, and
`read_parts` what it makes of them all. What a slot holds in the end is decided by the one part that
is about it, so any order of the parts of a request gives the configuration that was asked for.
-/

namespace Disasm6502.CommandLine

/-- An option is written as a dash and its letter or as two dashes and its name. -/
inductive Spelling where
  | letter
  | name
  deriving DecidableEq, Repr

def OptionDeclaration.written (o : OptionDeclaration) : Spelling → String
  | .letter => "-" ++ String.singleton o.letter
  | .name => "--" ++ o.name

/-- What can be set: an option or the positional argument. -/
inductive Slot where
  | option (o : OptionDeclaration)
  | positional
  deriving DecidableEq, Repr

namespace Declaration

end Declaration

namespace ArgumentParser

variable (P : ArgumentParser) (d : Declaration)

/-- What a slot is set to, asked for in the way that suits its kind. -/
def valueOf (v : P.Values) : Slot → OptionValue
  | .option o =>
    if o.default.isFlag then .flag (P.getBool v o.name) else .text (P.getString v o.name)
  | .positional => .text (P.getPositional v d.positional.name)

end ArgumentParser

/-- Arguments that keep together. -/
inductive Part where
  | input (path : String)
  | flag (o : OptionDeclaration) (spelling : Spelling)
  | text (o : OptionDeclaration) (spelling : Spelling) (value : String)
  deriving DecidableEq, Repr

namespace Part

def arguments : Part → List String
  | input path => [path]
  | flag o spelling => [o.written spelling]
  | text o spelling value => [o.written spelling, value]

def value : Part → OptionValue
  | input path => .text path
  | flag _ _ => .flag true
  | text _ _ value => .text value

end Part

section Reading

variable {P : ArgumentParser} {d : Declaration} {σ : Type} {start : σ} {values : σ → P.Values}
  {read : σ → List String → Except (Rejection P.Error) P.Values}

end Reading

/-! ## Parts in any order -/

/-- What a configuration holds in a slot. -/
def Config.valueOf (c : Config) : Slot → OptionValue
  | .positional => .text c.input
  | .option o =>
    if o = outputOption then .text c.output
    else if o = logOption then .text c.logFile
    else if o = headerOption then .flag c.header
    else if o = verboseOption then .flag c.verbose
    else .flag c.help

/-- What is to be said on a command line, and how each option is to be written. -/
structure Request where
  input : String
  output : Option (Spelling × String)
  log : Option (Spelling × String)
  header : Option Spelling
  verbose : Option Spelling
  deriving DecidableEq, Repr

namespace Request

def parts (r : Request) : List Part :=
  .input r.input ::
    (r.output.toList.map (fun o => .text outputOption o.1 o.2) ++
      (r.log.toList.map (fun l => .text logOption l.1 l.2) ++
        (r.header.toList.map (.flag headerOption) ++
          r.verbose.toList.map (.flag verboseOption))))

/-- The configuration that is asked for. -/
def config (r : Request) : Config where
  input := r.input
  output := (r.output.map Prod.snd).getD ""
  logFile := (r.log.map Prod.snd).getD ""
  header := r.header.isSome
  verbose := r.verbose.isSome
  help := false

end Request

/-! ## The parser that the command uses -/

end Disasm6502.CommandLine
