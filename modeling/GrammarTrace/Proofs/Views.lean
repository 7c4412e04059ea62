import GrammarTrace.Proofs.History

/-!
# What a history shows

A step shows the form that it leaves and, where input is read, the rest of the input. What stands
before a step is what the step before it shows (`viewBefore`). A run goes on from what its last
advance shows (`viewLeft`), whatever choices have been left for good since then.
-/

namespace GrammarTrace

/-- What a step shows of a run: the form and, where input is read, the rest of it. -/
structure View where
  form : Form
  remaining : Option String
deriving DecidableEq, Repr

/-- What a step shows. -/
def Step.view (step : Step) : View := ⟨step.form, step.remaining⟩

/-- Whether a run goes on from what a step with an action shows. -/
def Action.advances : Action → Bool
  | .start | .expand .. | .consume _ | .normalize .. | .reduce .. | .retry .. => true
  | _ => false

/-- Whether a step with an action ends a run. -/
def Action.isEnding : Action → Bool
  | .success | .undefinedNonterminal _ | .unexpectedEnd _ | .mismatch .. | .leftoverInput _
  | .noReductions | .alternativesExhausted | .inconclusive | .malformedInput _
  | .stepLimit _ => true
  | _ => false

/-- What stands before the step numbered `t`. Before the first step that is what the run begins
with, unless the first step is to show it. -/
def viewBefore (initial : Option View) (steps : List Step) : Nat → Option View
  | 0 => initial
  | t + 1 => steps[t]?.map Step.view

/-- What the last advance of a history shows. -/
def viewLeft (initial : Option View) (steps : List Step) : Option View :=
  ((steps.filter fun step => step.action.advances).getLast?.map Step.view).or initial

variable {initial : Option View} {steps more : List Step} {step : Step} {t : Nat} {view : View}

lemma Action.advances_of_role {action : Action} (h : action.role = .choice ∨ action.role = .retry) :
    action.advances = true := by
  cases action <;> simp_all [role, advances]

lemma Action.not_advances_of_role {action : Action} (h : action.role = .abandonment) :
    action.advances = false := by
  cases action <;> simp_all [role, advances]

/-- What stands before a step is not changed by later ones. -/
lemma viewBefore_append (h : viewBefore initial steps t = some view) :
    viewBefore initial (steps ++ more) t = some view := by
  cases t with
  | zero => exact h
  | succ t =>
    obtain ⟨step, hget, rfl⟩ := Option.map_eq_some_iff.mp h
    have hlt : t < steps.length := (List.getElem?_eq_some_iff.mp hget).1
    rw [viewBefore, List.getElem?_append_left hlt, hget, Option.map_some]

@[simp] lemma viewBefore_push :
    viewBefore initial (steps ++ [step]) (steps.length + 1) = some step.view := by
  simp [viewBefore]

/-- If the first step shows what a run begins with, what stands before a step is shown by the one
that precedes it. -/
lemma exists_of_viewBefore (h : viewBefore none steps t = some view) :
    ∃ i step, t = i + 1 ∧ steps[i]? = some step ∧ step.view = view := by
  cases t with
  | zero => cases h
  | succ i =>
    obtain ⟨step, hget, hview⟩ := Option.map_eq_some_iff.mp h
    exact ⟨i, step, rfl, hget, hview⟩

lemma viewLeft_push_of_advances (h : step.action.advances = true) :
    viewLeft initial (steps ++ [step]) = some step.view := by
  simp [viewLeft, List.filter_append, h]

lemma viewLeft_append_of_not_advances (h : ∀ step ∈ more, step.action.advances = false) :
    viewLeft initial (steps ++ more) = viewLeft initial steps := by
  have hnone : more.filter (fun step => step.action.advances) = [] := by
    rw [List.filter_eq_nil_iff]
    intro step hmem
    simp [h step hmem]
  rw [viewLeft, List.filter_append, hnone, List.append_nil, viewLeft]

end GrammarTrace
