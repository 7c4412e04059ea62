import GrammarTrace.Proofs.Search.Verdicts

/-!
# The alternatives that a search lists

A step that makes a choice, and the step that reaches the goal, list all the alternatives of the
position in which they find the search, in order of preference; a choice takes the first of them.
The position is the one that the step before shows (`SearchSpace.Ends.lists`).
-/

namespace GrammarTrace

variable {P A : Type}

/-- The steps that list the alternatives of the position that the step before them shows. -/
inductive SearchSpace.Lists (space : SearchSpace P A) (view : P → View) (initial : Option View)
    (earlier : List Step) : Step → Prop where
  | choice {p : P} {first : A} {others : List A}
      (hbefore : viewBefore initial earlier earlier.length = some (view p))
      (h : space.prospect p = .choice first others) :
      Lists space view initial earlier (space.choiceStep p first others)
  | goal {p : P} {alternatives : List A}
      (hbefore : viewBefore initial earlier earlier.length = some (view p))
      (h : space.prospect p = .goal alternatives) :
      Lists space view initial earlier (space.goalStep p alternatives)

/-- Whether a step lists alternatives if it makes a choice. -/
def SearchSpace.ListsChoices (space : SearchSpace P A) (view : P → View) (initial : Option View)
    (earlier : List Step) (step : Step) : Prop :=
  step.action.role = .choice → space.Lists view initial earlier step

variable {space : SearchSpace P A} {view : P → View} {initial : Option View} {limit : Nat}
  {s : SearchState P A} {trace : Trace} {earlier : List Step} {step : Step} {i : Nat}

lemma Action.ne_choice_of_isEnding {action : Action} (h : action.isEnding = true) :
    action.role ≠ .choice := by
  cases action <;> simp_all [isEnding, role]

lemma SearchSpace.Replays.listsChoices (hspace : space.IsDisplayed view)
    (h : space.Replays view initial earlier step) :
    space.ListsChoices view initial earlier step := by
  intro hrole
  cases h with
  | forced hbefore h =>
    rw [hspace.step, hspace.forced h] at hrole
    cases hrole
  | choice hbefore h => exact .choice hbefore h
  | @retry r =>
    rw [hspace.role_retryStep r] at hrole
    cases hrole
  | @abandonment c =>
    rw [hspace.role_abandonStep c] at hrole
    cases hrole
  | ending hending => exact absurd hrole (Action.ne_choice_of_isEnding hending)

/-- Only a search that reaches the goal marks a step as accepting, and the step is the last one. -/
lemma SearchSpace.Ends.exists_goalStep (hspace : space.IsDisplayed view)
    (hmarks : space.MarksGoals) (h : space.Ends limit s trace) (hs : Undecided s.trace.toList)
    (hstep : step ∈ trace.toList) (hmark : step.success = some true) :
    ∃ alternatives, space.prospect s.position = .goal alternatives ∧
      trace = s.trace.push (space.goalStep s.position alternatives) := by
  obtain ⟨before, last, htrace, -, hdecides⟩ := h.exists_decides hspace hmarks hs
  rw [htrace, Trace.mem_push] at hstep
  have hgoal : (space.prospect s.position).isGoal = true := by
    rcases hstep with hstep | rfl
    · rw [hdecides.undecided step hstep] at hmark
      cases hmark
    · exact hdecides.success.mp hmark
  cases h with
  | limit _ hnot =>
    rw [hnot] at hgoal
    cases hgoal
  | goal h => exact ⟨_, h, rfl⟩
  | breakdown h | deadEnd h | exhausted h =>
    rw [h] at hgoal
    cases hgoal

/-- Every choice of a search, and the goal, is a step that lists all alternatives. -/
theorem SearchSpace.Ends.lists (hspace : space.IsDisplayed view) (hmarks : space.MarksGoals)
    (h : space.Ends limit s trace)
    (hs : space.Replayed view initial (space.ListsChoices view initial) s)
    (hundecided : Undecided s.trace.toList) (hget : trace.toList[i]? = some step)
    (hstep : step.action.role = .choice ∨ step.success = some true) :
    space.Lists view initial (trace.toList.take i) step := by
  rcases hstep with hrole | hmark
  · have hlaw : ∀ ⦃earlier step⦄, space.Replays view initial earlier step →
        space.ListsChoices view initial earlier step := fun _ _ hreplays =>
      hreplays.listsChoices hspace
    exact (h.completes hspace hlaw hs).obeys i step hget hrole
  · obtain ⟨alternatives, hgoal, rfl⟩ :=
      h.exists_goalStep hspace hmarks hundecided (List.mem_of_getElem? hget) hmark
    rw [Trace.toList_push] at hget ⊢
    rcases getElem?_push.mp hget with hearlier | ⟨rfl, rfl⟩
    · rw [hundecided step (List.mem_of_getElem? hearlier)] at hmark
      cases hmark
    · rw [List.take_left]
      exact .goal hs.before hgoal

end GrammarTrace
