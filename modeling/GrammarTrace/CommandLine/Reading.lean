import GrammarTrace.CommandLine.Number
import GrammarTrace.CommandLine.Options

/-!
# Reading a command line

Arguments are read from left to right. An option is written `--name value`, `--name=value`,
`-nvalue`, `-n=value` or `-n value`; options and plain arguments may come in any order, and after
`--` every argument is plain. A lone `-` is plain. Anything else that begins with a dash is an
option, also where a value is expected.

The value of an option that stands in the next argument, like a plain argument, is checked only when
the argument after it has been recognized. So an unknown option is reported before a faulty value
that precedes it.
-/

namespace GrammarTrace.CommandLine

/-- An option with a value. -/
inductive Setting where
  | strategy
  | maxSteps
  | start
  | format
  | generate
  | seed
deriving DecidableEq, Repr

/-- An option without a value. -/
inductive Switch where
  | strict
  | help
  | version
deriving DecidableEq, Repr

/-- An option. -/
inductive Key where
  | setting (setting : Setting)
  | switch (switch : Switch)
deriving DecidableEq, Repr

/-- The options with their names and letters. -/
def keys : List (Key × String × Option Char) :=
  [(.setting .strategy, "strategy", some 'm'),
    (.setting .maxSteps, "max-steps", none),
    (.setting .start, "start", some 's'),
    (.setting .format, "format", some 'f'),
    (.switch .strict, "strict", none),
    (.setting .generate, "generate", some 'n'),
    (.setting .seed, "seed", none),
    (.switch .help, "help", some 'h'),
    (.switch .version, "version", some 'V')]

/-- The option with a name. -/
def keyOfName? (name : String) : Option Key :=
  (keys.find? fun key => key.2.1 == name).map Prod.fst

/-- The option with a letter. -/
def keyOfLetter? (letter : Char) : Option Key :=
  (keys.find? fun key => key.2.2 == some letter).map Prod.fst

/-- The arguments whose values have been checked. -/
structure Draft where
  file : Option String := none
  inputs : List String := []
  strategy : Option Strategy := none
  maxSteps : Option Nat := none
  start : Option String := none
  format : Option ReportFormat := none
  strict : Bool := false
  generate : Option Nat := none
  seed : Option Nat := none
deriving DecidableEq, Repr

/-- A value for an option that may be given once: a repetition is reported first, then a value that
is not understood. -/
def once {α : Type} (current read : Option α) (fault : UsageFault) :
    Except UsageFault (Option α) :=
  match current, read with
  | some _, _ => .error .repeatedArgument
  | none, none => .error fault
  | none, some value => .ok (some value)

namespace Draft

/-- Check the value of an option. -/
def assign (d : Draft) (setting : Setting) (value : String) : Except UsageFault Draft :=
  match setting with
  | .strategy => do
    let strategy ← once d.strategy (Strategy.ofName? value) .invalidValue
    return { d with strategy }
  | .maxSteps => do
    let maxSteps ← once d.maxSteps (unsignedBelow? UInt64.size value) .invalidNumber
    return { d with maxSteps }
  | .start => do
    let start ← once d.start (some value) .invalidValue
    return { d with start }
  | .format => do
    let format ← once d.format (ReportFormat.ofName? value) .invalidValue
    return { d with format }
  | .generate => do
    let generate ← once d.generate (signedBelow? UInt32.size value) .invalidNumber
    return { d with generate }
  | .seed => do
    let seed ← once d.seed (unsignedBelow? UInt64.size value) .invalidNumber
    return { d with seed }

/-- Turn a switch on. -/
def turnOn (d : Draft) : Switch → Except UsageFault Draft
  | .strict => if d.strict then .error .repeatedArgument else .ok { d with strict := true }
  | .help => .error .helpRequested
  | .version => .error .versionRequested

/-- The options of a complete command line. -/
def finish (d : Draft) : Except UsageFault Options :=
  match d.file with
  | none => .error .missingArgument
  | some file =>
    if d.seed.isSome && d.generate.isNone then .error .missingArgument
    else
      .ok
        { file
          inputs := d.inputs
          strategy := d.strategy.getD .topDown
          maxSteps := d.maxSteps
          start := d.start
          format := d.format.getD .text
          strict := d.strict
          generate := d.generate
          seed := d.seed }

end Draft

/-- Arguments that are recognized but not yet checked. -/
inductive Pending where
  | none
  /-- An option with its value, if that has come. -/
  | setting (setting : Setting) (value : Option String)
  | file (name : String)
  | inputs (texts : List String)
deriving DecidableEq, Repr

/-- A command line that has been read in part. -/
structure ReadSoFar where
  draft : Draft := {}
  pending : Pending := .none
  /-- Whether the file has been named. -/
  hasFile : Bool := false
  /-- Whether every further argument is plain. -/
  plainOnly : Bool := false
deriving DecidableEq, Repr

namespace ReadSoFar

/-- Check what is pending. -/
def settle (p : ReadSoFar) : Except UsageFault ReadSoFar :=
  match p.pending with
  | .none => .ok p
  | .setting _ none => .error .invalidValue
  | .setting setting (some value) => do
    let draft ← p.draft.assign setting value
    return { p with draft, pending := .none }
  | .file name =>
    if name.isEmpty then .error .invalidValue
    else .ok { p with draft := { p.draft with file := some name }, pending := .none }
  | .inputs texts =>
    .ok { p with draft := { p.draft with inputs := p.draft.inputs ++ texts }, pending := .none }

/-- Read an option with the value attached to it, if there is one. -/
def readSetting (p : ReadSoFar) (setting : Setting) (attached : Option String) :
    Except UsageFault ReadSoFar := do
  let p ← p.settle
  match attached with
  | none => return { p with pending := .setting setting none }
  | some value =>
    let draft ← p.draft.assign setting value
    return { p with draft }

/-- Read a switch. -/
def readSwitch (p : ReadSoFar) (switch : Switch) : Except UsageFault ReadSoFar := do
  let p ← p.settle
  let draft ← p.draft.turnOn switch
  return { p with draft }

/-- Read an option that is given by name. -/
def readNamed (p : ReadSoFar) (name : String) (attached : Option String) :
    Except UsageFault ReadSoFar :=
  match keyOfName? name, attached with
  | none, _ => .error .unknownArgument
  | some (.switch _), some _ => .error .tooManyValues
  | some (.switch switch), none => p.readSwitch switch
  | some (.setting setting), attached => p.readSetting setting attached

/-- Read options that are given by letter. What follows the letter of an option with a value is that
value, with or without an equals sign. -/
def readLetters (p : ReadSoFar) : List Char → Except UsageFault ReadSoFar
  | [] => .ok p
  | letter :: rest =>
    match keyOfLetter? letter, rest with
    | none, _ => .error .unknownArgument
    | some (.switch switch), rest => do
      let p ← p.readSwitch switch
      p.readLetters rest
    | some (.setting setting), [] => p.readSetting setting none
    | some (.setting setting), '=' :: value => p.readSetting setting (some (String.ofList value))
    | some (.setting setting), value => p.readSetting setting (some (String.ofList value))

/-- Read a plain argument: the first one names the file and the others are inputs. -/
def readPlain (p : ReadSoFar) (argument : String) : Except UsageFault ReadSoFar :=
  match p.pending with
  | .inputs texts => .ok { p with pending := .inputs (texts ++ [argument]) }
  | _ => do
    let p ← p.settle
    if p.hasFile then return { p with pending := .inputs [argument] }
    else return { p with pending := .file argument, hasFile := true }

/-- Read an argument that is no option: the value that an option waits for, or a plain argument. -/
def readText (p : ReadSoFar) (argument : String) : Except UsageFault ReadSoFar :=
  match p.pending with
  | .setting setting none => .ok { p with pending := .setting setting (some argument) }
  | _ => p.readPlain argument

/-- Read an argument. -/
def readArgument (p : ReadSoFar) (argument : String) : Except UsageFault ReadSoFar :=
  if p.plainOnly then p.readPlain argument
  else
    match argument.toList with
    | ['-', '-'] => .ok { p with plainOnly := true }
    | '-' :: '-' :: option =>
      let name := String.ofList (option.takeWhile (· ≠ '='))
      match option.dropWhile (· ≠ '=') with
      | [] => p.readNamed name none
      | _ :: value => p.readNamed name (some (String.ofList value))
    | '-' :: letter :: letters => p.readLetters (letter :: letters)
    | _ => p.readText argument

end ReadSoFar

/-- The options that a command line gives. -/
def read (arguments : List String) : Except UsageFault Options := do
  let p ← arguments.foldlM ReadSoFar.readArgument {}
  let p ← p.settle
  p.draft.finish

end GrammarTrace.CommandLine
