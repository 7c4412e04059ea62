import GrammarTrace.Proofs.Search.Exhaustion
import GrammarTrace.Proofs.Search.Replay
import GrammarTrace.Proofs.Search.Soundness

/-!
# What a verdict says

A search that accepts has found a way from where it started to the goal, and a search that rejects
has shown that there is none, unless it had to be broken off. The verdict is that of the last step,
which agrees with what the step shows (`SearchSpace.exists_decides`).
-/

namespace GrammarTrace

variable {P A : Type} {space : SearchSpace P A} {I : P → Prop} {limit : Nat} {p : P}
  {trace : Trace} {view : P → View} {s next : SearchState P A} {steps more : List Step}
  {step : Step} {exhausted : ChoiceStack P A}

lemma SearchSpace.preserves_solvable :
    space.Preserves fun q => space.Solvable q → space.Solvable p where
  forced hI h hnext := hI (solvable_of_forced h hnext)
  choice hI h ha htaken := hI (solvable_of_choice h ha htaken)

/-- An accepting search has found a way to the goal. -/
theorem SearchSpace.solvable_of_accepted (hmarks : space.MarksGoals)
    (haccepted : (space.run limit ⟨p, [], trace⟩).verdict = .accepted) : space.Solvable p := by
  obtain ⟨q, alternatives, hq, hgoal⟩ :=
    exists_goal_of_accepted hmarks preserves_solvable (sound_of_start id) haccepted
  exact hq (solvable_of_goal hgoal)

/-- A rejecting search that could not be broken off shows that no way leads to the goal. -/
theorem SearchSpace.not_solvable_of_rejected (hmarks : space.MarksGoals)
    (hI : space.Preserves I) (hwhole : ∀ q reason, I q → space.prospect q ≠ .breakdown reason)
    (hp : I p) (hrejected : (space.run limit ⟨p, [], trace⟩).verdict = .rejected) :
    ¬space.Solvable p := by
  obtain ⟨last, hreach, hends⟩ := space.exists_ends limit ⟨p, [], trace⟩
  generalize space.run limit ⟨p, [], trace⟩ = final at hrejected hends
  cases hends with
  | limit =>
    rw [Trace.verdict_push, Verdict.ofMark_eq_rejected, hmarks.step] at hrejected
    cases hrejected
  | goal =>
    rw [Trace.verdict_push, Verdict.ofMark_eq_rejected] at hrejected
    cases hrejected
  | breakdown h => exact absurd h (hwhole _ _ (hreach.sound hI (sound_of_start hp)).position)
  | deadEnd h hstack => exact hreach.not_solvable h (by simp [hstack])
  | exhausted h hstack hall => exact hreach.not_solvable h hall

/-! ### The step that decides -/

/-- Whether no step says whether the input belongs to the grammar. -/
def Undecided (steps : List Step) : Prop := ∀ step ∈ steps, step.success = none

@[simp] lemma undecided_nil : Undecided [] := List.forall_mem_nil _

@[simp] lemma undecided_append : Undecided (steps ++ more) ↔ Undecided steps ∧ Undecided more :=
  List.forall_mem_append

@[simp] lemma undecided_singleton : Undecided [step] ↔ step.success = none :=
  List.forall_mem_singleton

/-- Only the last step of a search decides, and it says that the input belongs to the grammar just
if the search stands at the goal. It leaves the question open only at the limit or on giving up. -/
structure SearchSpace.Decides (space : SearchSpace P A) (limit : Nat) (p : P) (before : Trace)
    (last : Step) : Prop where
  undecided : Undecided before.toList
  success : last.success = some true ↔ (space.prospect p).isGoal = true
  unmarked : last.success = none →
    (last.action = .stepLimit limit ∧ limit ≤ before.size) ∨ ∃ reason, last = space.giveUp p reason

lemma SearchSpace.MarksGoals.undecided_abandonSteps (hmarks : space.MarksGoals) :
    Undecided (exhausted.map space.abandonStep) := by
  intro step hstep
  obtain ⟨c, -, rfl⟩ := List.mem_map.mp hstep
  exact hmarks.step ..

lemma SearchSpace.Move.undecided (hmarks : space.MarksGoals) (h : space.Move s next)
    (hs : Undecided s.trace.toList) : Undecided next.trace.toList := by
  cases h with
  | forced =>
    rw [Trace.toList_push, undecided_append, undecided_singleton]
    exact ⟨hs, hmarks.step ..⟩
  | choose =>
    rw [SearchSpace.choose, Trace.toList_push, undecided_append, undecided_singleton]
    exact ⟨hs, hmarks.step ..⟩
  | resume =>
    rw [Trace.toList_push, Trace.toList_pushAll, undecided_append, undecided_append,
      undecided_singleton]
    exact ⟨⟨hs, hmarks.undecided_abandonSteps⟩, hmarks.step ..⟩

lemma SearchSpace.Reaches.undecided (hmarks : space.MarksGoals) (h : space.Reaches limit s next)
    (hs : Undecided s.trace.toList) : Undecided next.trace.toList := by
  induction h with
  | refl => exact hs
  | tail _ hmove ih => exact hmove.2.undecided hmarks ih

lemma SearchSpace.decides_giveUp {reason : Action} {before : Trace} (hmarks : space.MarksGoals)
    (h : Undecided before.toList) (hgoal : (space.prospect p).isGoal = false) :
    space.Decides limit p before (space.giveUp p reason) where
  undecided := h
  success := by simp [hgoal, hmarks.giveUp]
  unmarked _ := .inr ⟨reason, rfl⟩

lemma SearchSpace.Ends.exists_decides (hspace : space.IsDisplayed view) (hmarks : space.MarksGoals)
    (h : space.Ends limit s trace) (hs : Undecided s.trace.toList) :
    ∃ before last, trace = before.push last ∧ last.view = view s.position ∧
      space.Decides limit s.position before last := by
  cases h with
  | limit hlimit hgoal =>
    refine ⟨_, _, rfl, hspace.view_step .., hs, ?_, fun _ => .inl ⟨hspace.step .., hlimit⟩⟩
    simp [hmarks.step, hgoal]
  | goal h =>
    refine ⟨_, _, rfl, hspace.view_step .., hs, ?_, fun hnone => by cases hnone⟩
    simp [goalStep, h, Prospect.isGoal]
  | breakdown h =>
    refine ⟨_, _, rfl, hspace.view_step .., hs, ?_, fun hnone => by cases hnone⟩
    simp [h, Prospect.isGoal]
  | deadEnd h hstack =>
    refine ⟨_, _, rfl, hspace.view_giveUp .., decides_giveUp hmarks hs ?_⟩
    simp [h, Prospect.isGoal]
  | exhausted h hstack hall =>
    refine ⟨_, _, rfl, hspace.view_giveUp .., decides_giveUp hmarks ?_ ?_⟩
    · rw [Trace.toList_pushAll, undecided_append]
      exact ⟨hs, hmarks.undecided_abandonSteps⟩
    · simp [h, Prospect.isGoal]

/-- The last step of a run decides alone, by the position that it shows. -/
theorem SearchSpace.exists_decides (hspace : space.IsDisplayed view) (hmarks : space.MarksGoals)
    (hs : Undecided s.trace.toList) (limit : Nat) :
    ∃ before last p, space.run limit s = before.push last ∧ last.view = view p ∧
      space.Decides limit p before last := by
  obtain ⟨state, hreach, hends⟩ := space.exists_ends limit s
  obtain ⟨before, last, htrace, hview, hdecides⟩ :=
    hends.exists_decides hspace hmarks (hreach.undecided hmarks hs)
  exact ⟨before, last, state.position, htrace, hview, hdecides⟩

end GrammarTrace
