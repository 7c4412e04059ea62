import GrammarTrace.Search.Choice
import GrammarTrace.Trace

/-!
# Depth-first search with a trace

A search space says what is found at a position: the goal, a forced move, a choice between
alternatives, a dead end, or something with which the search as a whole cannot be continued. The
search takes the first alternative of every choice. At a dead end it goes back to the youngest
choice with an untried alternative and takes the next one there. Everything that it does is
recorded in a trace, and the search stops when the trace has reached a bound.
-/

namespace GrammarTrace

/-- What is found at a position of a search. -/
inductive Prospect (P A : Type) where
  /-- The goal, with the alternatives that were still open there. -/
  | goal (alternatives : List A)
  /-- A single way on, which is no choice. -/
  | forced (action : Action) (next : P)
  /-- A choice, its alternatives in order of preference. -/
  | choice (first : A) (others : List A)
  /-- No way on from here. -/
  | deadEnd (reason : Action)
  /-- The search as a whole cannot be continued. -/
  | breakdown (reason : Action)

namespace Prospect

variable {P A : Type}

/-- Whether the goal is found. -/
def isGoal : Prospect P A → Bool
  | .goal _ => true
  | _ => false

end Prospect

/-- A search space with positions `P` and alternatives `A`, and the way its steps are recorded. -/
structure SearchSpace (P A : Type) where
  /-- What is found at a position. -/
  prospect : P → Prospect P A
  /-- The position to which an alternative leads. -/
  take : P → A → P
  /-- An alternative as it is shown. -/
  candidate : P → A → Candidate
  /-- The action of taking an alternative for the first time. -/
  chosen : Candidate → Action
  /-- The action of leaving a choice for good. -/
  abandoned : P → Action
  /-- The step that records an action at a position. -/
  step : P → Action → Step
  /-- The step that ends a search with nothing left to go back to. -/
  giveUp : P → Action → Step

/-- A search in progress. -/
structure SearchState (P A : Type) where
  position : P
  choices : ChoiceStack P A
  trace : Trace

/-- A search after one more move: over, or still in progress. -/
inductive Progress (P A : Type) where
  | ended (trace : Trace)
  | running (state : SearchState P A)

namespace Progress

variable {P A : Type}

/-- The steps recorded so far. -/
def trace : Progress P A → Trace
  | .ended trace => trace
  | .running state => state.trace

end Progress

namespace SearchSpace

variable {P A : Type}

/-! ### Steps -/

/-- The step of a choice: the first alternative is taken and all of them are shown. -/
def choiceStep (space : SearchSpace P A) (position : P) (first : A) (others : List A) : Step :=
  let taken := space.candidate position first
  { space.step (space.take position first) (space.chosen taken) with
    candidates := taken :: others.map (space.candidate position)
    selected := some taken }

/-- The step that takes up a choice again. -/
def retryStep (space : SearchSpace P A) (r : Resumption P A) : Step :=
  let taken := space.candidate r.choice.snapshot r.alternative
  { space.step (space.take r.choice.snapshot r.alternative)
      (.retry taken.nonterminal taken.production) with
    candidates := r.choice.alternatives.map (space.candidate r.choice.snapshot)
    selected := some taken
    backtrackTo := some r.choice.step }

/-- The step that leaves a choice for good. -/
def abandonStep (space : SearchSpace P A) (choice : Choice P A) : Step :=
  { space.step choice.snapshot (space.abandoned choice.snapshot) with
    backtrackTo := some choice.step }

/-- The step that reaches the goal. -/
def goalStep (space : SearchSpace P A) (position : P) (alternatives : List A) : Step :=
  { space.step position .success with
    candidates := alternatives.map (space.candidate position)
    success := some true }

/-! ### Moves -/

/-- Go back to the youngest choice with an untried alternative. A search that never had a choice
ends for the reason given. -/
def backtrack (space : SearchSpace P A) (state : SearchState P A) (reason : Action) :
    Progress P A :=
  if state.choices.isEmpty then
    .ended (state.trace.push (space.giveUp state.position reason))
  else
    let resumed := state.choices.resume
    let trace := state.trace.pushAll (resumed.abandoned.map space.abandonStep)
    match resumed.resumption with
    | none => .ended (trace.push (space.giveUp state.position .alternativesExhausted))
    | some r =>
      .running ⟨space.take r.choice.snapshot r.alternative, resumed.stack,
        trace.push (space.retryStep r)⟩

/-- Take the first alternative of a choice. Only a choice with a second alternative is kept. -/
def choose (space : SearchSpace P A) (state : SearchState P A) (first : A) (others : List A) :
    SearchState P A where
  position := space.take state.position first
  choices :=
    if others.isEmpty then state.choices
    else { snapshot := state.position, alternatives := first :: others, step := state.trace.size }
      :: state.choices
  trace := state.trace.push (space.choiceStep state.position first others)

/-- Make the move that a prospect calls for. -/
def proceed (space : SearchSpace P A) (state : SearchState P A) : Prospect P A → Progress P A
  | .goal alternatives => .ended (state.trace.push (space.goalStep state.position alternatives))
  | .forced action next =>
    .running { state with
      position := next
      trace := state.trace.push (space.step next action) }
  | .choice first others => .running (space.choose state first others)
  | .deadEnd reason => space.backtrack state reason
  | .breakdown reason =>
    .ended (state.trace.push { space.step state.position reason with success := some false })

/-! ### The search -/

theorem size_lt_size_backtrack (space : SearchSpace P A) (state : SearchState P A)
    (reason : Action) : state.trace.size < (space.backtrack state reason).trace.size := by
  unfold backtrack
  split
  · simp [Progress.trace]
  · dsimp only
    split <;> simp only [Progress.trace, Trace.size_push, Trace.size_pushAll] <;> omega

/-- Every move is recorded. -/
theorem size_lt_size_proceed (space : SearchSpace P A) (state : SearchState P A)
    (prospect : Prospect P A) : state.trace.size < (space.proceed state prospect).trace.size := by
  cases prospect with
  | deadEnd reason => exact size_lt_size_backtrack space state reason
  | goal => simp [proceed, Progress.trace]
  | forced => simp [proceed, Progress.trace]
  | choice => simp [proceed, Progress.trace, choose]
  | breakdown => simp [proceed, Progress.trace]

/-- A search goes on only from a position that is not the goal. -/
theorem isGoal_eq_false_of_proceed {space : SearchSpace P A} {state next : SearchState P A}
    {prospect : Prospect P A} (h : space.proceed state prospect = .running next) :
    prospect.isGoal = false := by
  cases prospect <;> simp_all [proceed, Prospect.isGoal]

/-- Search until the search ends or the trace has reached the limit. The goal is recorded even if
the limit is reached with it. -/
def run (space : SearchSpace P A) (limit : Nat) (state : SearchState P A) : Trace :=
  let prospect := space.prospect state.position
  if limit ≤ state.trace.size ∧ prospect.isGoal = false then
    state.trace.push (space.step state.position (.stepLimit limit))
  else
    match _h : space.proceed state prospect with
    | .ended trace => trace
    | .running next => space.run limit next
termination_by limit - state.trace.size
decreasing_by
  have size_lt := size_lt_size_proceed space state prospect
  have not_goal := isGoal_eq_false_of_proceed _h
  rw [_h] at size_lt
  simp only [Progress.trace] at size_lt
  simp_all
  omega

end SearchSpace

end GrammarTrace
