import GrammarTrace.Report.Json
import GrammarTrace.Strategy

/-!
# The report of a run as a JSON document

The document names the input, the strategy and the verdict and lists every step of the trace.
-/

namespace GrammarTrace

/-- A symbol with its type. -/
def Symbol.toJson : Symbol → Json
  | .terminal text => .object [("type", .string "terminal"), ("value", .string text)]
  | .nonterminal name => .object [("type", .string "nonterminal"), ("value", .string name)]

/-- The name of the kind of an action. -/
def Action.kind : Action → String
  | .start => "start"
  | .expand .. => "expand"
  | .consume .. => "consume"
  | .normalize .. => "normalize"
  | .reduce .. => "reduce"
  | .retry .. => "retry"
  | .abandonExpansion .. => "abandon_expansion"
  | .abandonReduction .. => "abandon_reduction"
  | .success => "success"
  | .undefinedNonterminal .. => "undefined_nonterminal"
  | .unexpectedEnd .. => "unexpected_end"
  | .mismatch .. => "mismatch"
  | .leftoverInput .. => "leftover_input"
  | .noReductions => "no_reductions"
  | .alternativesExhausted => "alternatives_exhausted"
  | .inconclusive => "inconclusive"
  | .malformedInput .. => "malformed_input"
  | .stepLimit .. => "step_limit"

/-- What an action is about, by name. -/
def Action.fields : Action → List (String × Json)
  | .expand nonterminal production | .reduce nonterminal production
  | .retry nonterminal production =>
    [("nonterminal", .string nonterminal), ("production", .string production)]
  | .normalize terminal nonterminal =>
    [("terminal", .string terminal), ("nonterminal", .string nonterminal)]
  | .consume terminal => [("terminal", .string terminal)]
  | .abandonExpansion nonterminal | .undefinedNonterminal nonterminal =>
    [("nonterminal", .string nonterminal)]
  | .abandonReduction form => [("form", .string form)]
  | .unexpectedEnd expected => [("expected", .string expected)]
  | .mismatch expected found =>
    [("expected", .string expected), ("found", .string (String.singleton found))]
  | .leftoverInput remaining => [("remaining", .string remaining)]
  | .malformedInput position => [("position", .number position)]
  | .stepLimit limit => [("limit", .number limit)]
  | .start | .success | .noReductions | .alternativesExhausted | .inconclusive => []

/-- An action with its kind first. -/
def Action.toJson (action : Action) : Json :=
  .object (("kind", .string action.kind) :: action.fields)

/-- A span with its ends. -/
def Span.toJson (span : Span) : Json :=
  .object [("start", .number span.start), ("end", .number span.stop)]

/-- A candidate; a span is given for reductions only. -/
def Candidate.toJson (candidate : Candidate) : Json :=
  .object <|
    [("nonterminal", .string candidate.nonterminal), ("production", .string candidate.production)]
      ++ candidate.span.toList.map fun span => ("span", span.toJson)

/-- A step with its number; the unread input is given only where input is read. -/
def Step.toJson (step : Step) (id : Nat) : Json :=
  .object <|
    [("id", .number id),
      ("action", step.action.toJson),
      ("form", .array (step.form.map Symbol.toJson)),
      ("display", .string step.display)]
      ++ step.remaining.toList.map (fun text => ("remaining_input", .string text))
      ++ [("candidates", .array (step.candidates.map Candidate.toJson)),
        ("selected", .ofOption Candidate.toJson step.selected),
        ("backtrack_to", .ofOption .number step.backtrackTo),
        ("success", .ofOption .bool step.success)]

/-- The document of a run. -/
def Trace.toJson (trace : Trace) (input : String) (strategy : Strategy) : Json :=
  .object
    [("input", .string input),
      ("strategy", .string strategy.name),
      ("verdict", .string trace.verdict.word),
      ("steps", .array (trace.toList.zipIdx.map fun step => step.1.toJson step.2))]

/-- The text of the document of a run, which ends with a line break. -/
def Trace.document (trace : Trace) (input : String) (strategy : Strategy) : String :=
  (trace.toJson input strategy).text ++ "\n"

end GrammarTrace
