import GrammarTrace.Symbol
import GrammarTrace.Trace.Action

/-!
# Traces

A trace is the history of a match run, a sequence of steps that only grows at its end. A step is
identified by its position, counted from zero, and a step that returns to an earlier choice names
the step that made it. The verdict of a run is read off the success mark of its last step.
-/

namespace GrammarTrace

/-- The symbols of a form from `start` up to, but not including, `stop`. -/
structure Span where
  start : Nat
  stop : Nat
deriving DecidableEq, Repr

/-- An alternative considered at a step: an expansion, or a reduction of a span of the form. -/
structure Candidate where
  nonterminal : String
  production : String
  span : Option Span := none
deriving DecidableEq, Repr

/-- One step of a match run. -/
structure Step where
  action : Action
  /-- The sentential form after the action. -/
  form : Form
  /-- The input that is still to be read, where input is read. -/
  remaining : Option String := none
  /-- The alternatives of the choice that was made, in order of preference. -/
  candidates : List Candidate := []
  /-- The alternative that was taken. -/
  selected : Option Candidate := none
  /-- The step whose choice is taken up again or abandoned. -/
  backtrackTo : Option Nat := none
  /-- Whether the input belongs to the grammar, once that is decided. -/
  success : Option Bool := none
deriving DecidableEq, Repr

namespace Step

/-- The form of a step as text. -/
def display (step : Step) : String := Form.text step.form

/-- Whether a step goes back to an earlier one. -/
def isBacktrack (step : Step) : Bool := step.backtrackTo.isSome

end Step

/-- The outcome of a match run. -/
inductive Verdict where
  | accepted
  | rejected
  /-- The run ended without an answer. -/
  | unresolved
deriving DecidableEq, Repr

namespace Verdict

/-- The verdict that a success mark stands for. -/
def ofMark : Option Bool → Verdict
  | some true => .accepted
  | some false => .rejected
  | none => .unresolved

/-- The word for a verdict. -/
def word : Verdict → String
  | .accepted => "accepted"
  | .rejected => "rejected"
  | .unresolved => "unresolved"

end Verdict

/-- The history of a match run. -/
structure Trace where
  steps : Array Step := #[]
deriving DecidableEq, Repr

namespace Trace

/-- The trace without steps. -/
def empty : Trace := {}

/-- The number of steps, which is also the number that the next step gets. -/
def size (trace : Trace) : Nat := trace.steps.size

/-- Record a step. -/
def push (trace : Trace) (step : Step) : Trace := ⟨trace.steps.push step⟩

/-- Record steps from left to right. -/
def pushAll (trace : Trace) (steps : List Step) : Trace := steps.foldl push trace

/-- The steps in the order in which they were recorded. -/
def toList (trace : Trace) : List Step := trace.steps.toList

/-- The step with a number. -/
def get? (trace : Trace) (id : Nat) : Option Step := trace.steps[id]?

/-- The step recorded last. -/
def last? (trace : Trace) : Option Step := trace.steps.back?

/-- The outcome that the last step shows. -/
def verdict (trace : Trace) : Verdict := Verdict.ofMark (trace.last?.bind Step.success)

/-- The number of steps that go back to an earlier one. -/
def backtrackCount (trace : Trace) : Nat := trace.steps.countP Step.isBacktrack

@[simp] theorem size_empty : empty.size = 0 := rfl

@[simp] theorem toList_empty : empty.toList = [] := rfl

@[simp] theorem size_push (trace : Trace) (step : Step) :
    (trace.push step).size = trace.size + 1 := by simp [push, size]

@[simp] theorem toList_push (trace : Trace) (step : Step) :
    (trace.push step).toList = trace.toList ++ [step] := by simp [push, toList]

@[simp] theorem toList_pushAll (trace : Trace) (steps : List Step) :
    (trace.pushAll steps).toList = trace.toList ++ steps := by
  induction steps generalizing trace with
  | nil => simp [pushAll]
  | cons step rest ih =>
    rw [show trace.pushAll (step :: rest) = (trace.push step).pushAll rest from rfl, ih]
    simp

@[simp] theorem length_toList (trace : Trace) : trace.toList.length = trace.size := by
  simp [toList, size]

@[simp] theorem size_pushAll (trace : Trace) (steps : List Step) :
    (trace.pushAll steps).size = trace.size + steps.length := by
  rw [← length_toList, toList_pushAll, List.length_append, length_toList]

@[simp] theorem last?_push (trace : Trace) (step : Step) : (trace.push step).last? = some step := by
  simp [push, last?]

end Trace

end GrammarTrace
