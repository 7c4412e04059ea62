import GrammarTrace.CommandLine.Options
import GrammarTrace.Random.ChaCha
import GrammarTrace.Report.Document
import GrammarTrace.Report.Listing
import GrammarTrace.RuleText.Reading
import GrammarTrace.Sentence

/-!
# Sessions

A session carries out the options of a command line: it reads the rules and then either makes
sentences or matches every input and reports each run. It exits with 0 if all went well, with 1 if
an input was not accepted or a sentence could not be made, and with 2 if it could not begin.
-/

namespace GrammarTrace

/-- What a session leaves behind. -/
structure Response where
  exitCode : Nat
  output : String := ""
  errors : String := ""
deriving DecidableEq, Repr

namespace Session

variable {σ : Type}

/-- Lines of text, each with a line break. -/
def asLines (lines : List String) : String := String.join (lines.map (· ++ "\n"))

/-- The response to a command line that is not carried out. -/
def refuse : UsageFault → Response
  | .versionRequested => { exitCode := 0, output := "derivator 0.1.0\n" }
  | .helpRequested =>
    { exitCode := 0
      output := "Usage: derivator [OPTIONS] <FILE> [INPUTS]...\n" }
  | _ =>
    { exitCode := 2
      errors := "error: invalid arguments\n\nUsage: derivator [OPTIONS] <FILE> [INPUTS]...\n" }

/-- The grammar that a session works with, and the warnings that it has given. -/
structure Loaded where
  grammar : Grammar
  warnings : String

/-- The response to rules with faults. -/
def stop (faults : List (Diagnostic RuleFault)) : Response where
  exitCode := 2
  errors := asLines (faults.map Diagnostic.asError)

/-- A grammar with the start symbol that is asked for. -/
def restart (o : Options) (g : Grammar) : Grammar :=
  match o.startSymbol with
  | none => g
  | some start => g.withStart start

/-- Read the rules. -/
def load (o : Options) (opened : Except FileFailure ByteArray) : Except Response Loaded :=
  match RuleText.ofFile o.file opened with
  | .error faults => .error (stop faults)
  | .ok reading =>
    if o.strict then
      match reading.strict with
      | .error faults => .error (stop faults)
      | .ok g => .ok ⟨restart o g, ""⟩
    else .ok ⟨restart o reading.grammar, asLines (reading.warnings.map Diagnostic.asWarning)⟩

/-- Make sentences, one per line. -/
def generate (source : SeededChooser σ) (o : Options) (loaded : Loaded) (count seed : Nat) :
    Response :=
  let (texts, fault) := loaded.grammar.sentences source.toChooser Grammar.defaultDepth count
    (source.ofSeed (UInt64.ofNat seed))
  match fault with
  | none => { exitCode := 0, output := asLines texts, errors := loaded.warnings }
  | some fault =>
    let diagnostic : Diagnostic SentenceFault := ⟨{ file := o.file }, fault⟩
    { exitCode := 1
      output := asLines texts
      errors := loaded.warnings ++ diagnostic.asError ++ "\n" }

/-- The inputs of a session: those of the command line, or the lines of standard input. -/
def inputs (o : Options) (stdin : ByteArray) : Except FileFailure (List String) :=
  if o.inputs.isEmpty then
    (Text.byteLines stdin).mapM fun line =>
      match Text.decode? line with
      | none => .error .notText
      | some text => .ok (String.ofList text)
  else .ok o.inputs

/-- The report of a run. -/
def report (o : Options) (input : String) (trace : Trace) : String :=
  match o.format with
  | .text => trace.listing input
  | .json => trace.document input o.strategy

/-- Match inputs one after the other. -/
def matchInputs (o : Options) (loaded : Loaded) (inputs : List String) : Response :=
  let runs := inputs.map fun input => (input, o.strategy.run loaded.grammar input o.limit)
  { exitCode := if runs.all fun run => run.2.verdict == .accepted then 0 else 1
    output := String.join (runs.map fun run => report o run.1 run.2)
    errors := loaded.warnings }

/-- Whether a session reads standard input. -/
def readsInput (o : Options) : Bool := o.generate.isNone && o.inputs.isEmpty

/-- Carry out the options with rules that have been read. Without a seed of its own the session
makes sentences from the seed given here. -/
def proceed (source : SeededChooser σ) (o : Options) (loaded : Loaded) (stdin : ByteArray)
    (seed : Nat) : Response :=
  match o.generate with
  | some count => generate source o loaded count (o.seed.getD seed)
  | none =>
    match inputs o stdin with
    | .error failure => { exitCode := 2, errors := loaded.warnings ++ failure.text ++ "\n" }
    | .ok texts => matchInputs o loaded texts

/-- Carry out the options, choosing in a given way. -/
def respondWith (source : SeededChooser σ) (o : Options) (opened : Except FileFailure ByteArray)
    (stdin : ByteArray) (seed : Nat) : Response :=
  match load o opened with
  | .error response => response
  | .ok loaded => proceed source o loaded stdin seed

/-- Carry out the options. -/
def respond (o : Options) (opened : Except FileFailure ByteArray) (stdin : ByteArray) (seed : Nat) :
    Response :=
  respondWith WordStream.seededChooser o opened stdin seed

end Session

end GrammarTrace
