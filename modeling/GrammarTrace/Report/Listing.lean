import GrammarTrace.Trace

/-!
# The report of a run as a listing

The listing shows the input, a block of lines for every step and a line with the verdict. Steps and
positions are counted from one, and an empty text is shown as such.
-/

namespace GrammarTrace

/-- A text, or a word for the empty one. -/
def orEmpty (text : String) : String := if text.isEmpty then "[empty]" else text

/-- What a candidate does, and where. -/
def Candidate.listing (candidate : Candidate) : String :=
  match candidate.span with
  | none => candidate.nonterminal ++ " -> " ++ orEmpty candidate.production
  | some span =>
    if span.stop ≤ span.start then
      "[empty] -> " ++ candidate.nonterminal ++ " (before position " ++ toString (span.start + 1)
        ++ ")"
    else
      orEmpty candidate.production ++ " -> " ++ candidate.nonterminal ++ " (positions "
        ++ toString (span.start + 1) ++ "-" ++ toString span.stop ++ ")"

/-- The line of a candidate; the selected one is marked. -/
def Candidate.line (selected : Option Candidate) (candidate : Candidate) : String :=
  let mark := if selected = some candidate then "*" else " "
  "      " ++ mark ++ " " ++ candidate.listing ++ "\n"

/-- The block of lines of a step. -/
def Step.listing (step : Step) (id : Nat) : String :=
  let heading := "Step " ++ toString (id + 1) ++ ": " ++ step.action.message ++ "\n"
  let target := match step.backtrackTo with
    | none => ""
    | some earlier => "    back to step " ++ toString (earlier + 1) ++ "\n"
  let form := "    form:  " ++ orEmpty step.display ++ "\n"
  let unread := match step.remaining with
    | none => ""
    | some text => "    input: " ++ orEmpty text ++ "\n"
  let candidates :=
    if step.candidates.isEmpty then ""
    else "    candidates:\n" ++ String.join (step.candidates.map (Candidate.line step.selected))
  heading ++ target ++ form ++ unread ++ candidates

/-- The listing of a run. -/
def Trace.listing (trace : Trace) (input : String) : String :=
  "== " ++ input ++ " ==\n"
    ++ String.join (trace.toList.zipIdx.map fun step => step.1.listing step.2)
    ++ "Result: " ++ trace.verdict.word ++ " after " ++ toString trace.size ++ " steps ("
    ++ toString trace.backtrackCount ++ " backtracking)\n"

end GrammarTrace
