import GrammarTrace.Strategy

/-!
# Options of the program

What a command line asks for: the file with the rules, the inputs, the strategy and its bound, the
start symbol, the format of the report, and whether sentences are made instead of reports.
-/

namespace GrammarTrace

/-- How a run is reported. -/
inductive ReportFormat where
  /-- Numbered blocks of lines. -/
  | text
  /-- A JSON document. -/
  | json
deriving DecidableEq, Repr

namespace ReportFormat

/-- The name of a format. -/
def name : ReportFormat → String
  | .text => "text"
  | .json => "json"

/-- The format with a name. -/
def ofName? (name : String) : Option ReportFormat :=
  [ReportFormat.text, .json].find? fun format => format.name == name

end ReportFormat

/-- What a command line asks for. -/
structure Options where
  file : String
  /-- The inputs to be matched; if there are none, they are read from standard input. -/
  inputs : List String := []
  strategy : Strategy := .topDown
  maxSteps : Option Nat := none
  start : Option String := none
  format : ReportFormat := .text
  /-- Whether warnings are errors. -/
  strict : Bool := false
  /-- How many sentences are to be made instead. -/
  generate : Option Nat := none
  seed : Option Nat := none
deriving DecidableEq, Repr

namespace Options

/-- The start symbol with its brackets. -/
def startSymbol (o : Options) : Option String :=
  o.start.map fun start =>
    if start.toList.head? = some '<' ∧ start.toList.getLast? = some '>' then start
    else "<" ++ start ++ ">"

/-- The number of steps after which a run stops. -/
def limit (o : Options) : Nat := o.maxSteps.getD o.strategy.defaultLimit

end Options

/-- Why a command line is not carried out. -/
inductive UsageFault where
  /-- The file is missing, or an option that another one needs. -/
  | missingArgument
  /-- An option has no value or one that it does not know, or the file name is empty. -/
  | invalidValue
  /-- A value is no number in range. -/
  | invalidNumber
  | unknownArgument
  /-- An option is given twice. -/
  | repeatedArgument
  /-- A switch is given a value. -/
  | tooManyValues
  | helpRequested
  | versionRequested
deriving DecidableEq, Repr

end GrammarTrace
