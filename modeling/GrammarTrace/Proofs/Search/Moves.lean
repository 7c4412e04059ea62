import Mathlib.Logic.Relation
import Mathlib.Tactic.Common
import GrammarTrace.Search.Space

/-!
# The moves of a search

`SearchSpace.Move` says what a move does that does not end a search, and `SearchSpace.Ends` says how
a search ends. A run is a sequence of moves followed by an end (`SearchSpace.exists_ends`), so that
facts about runs are proved move by move.
-/

namespace GrammarTrace

variable {S P A : Type}

/-! ### Going back to a choice -/

lemma Choice.isExhausted_iff {choice : Choice S A} :
    choice.isExhausted = true ↔ choice.alternatives.length ≤ choice.cursor := by
  simp [Choice.isExhausted]

/-- An alternative is granted by the youngest choice that has one left. The choices above it are
exhausted, and all of them are abandoned. -/
lemma ChoiceStack.exists_of_resumption {stack : ChoiceStack S A} {r : Resumption S A}
    (h : stack.resume.resumption = some r) :
    ∃ exhausted older, stack = exhausted ++ r.choice :: older ∧
      (∀ choice ∈ exhausted, choice.isExhausted = true) ∧
      stack.resume = ⟨exhausted, some r, r.choice.advance :: older⟩ := by
  induction stack with
  | nil => simp [ChoiceStack.resume] at h
  | cons choice older ih =>
    by_cases hc : choice.cursor < choice.alternatives.length
    · simp only [ChoiceStack.resume, dif_pos hc, Option.some.injEq] at h ⊢
      subst h
      exact ⟨[], older, rfl, by simp, rfl⟩
    · simp only [ChoiceStack.resume, dif_neg hc] at h ⊢
      split_ifs at h ⊢ with hempty
      · rw [List.isEmpty_iff.mp hempty] at h
        simp [ChoiceStack.resume] at h
      · obtain ⟨exhausted, rest, rfl, hall, hresume⟩ := ih h
        refine ⟨choice :: exhausted, rest, rfl, ?_, by rw [hresume]⟩
        intro c hmem
        rcases List.mem_cons.mp hmem with rfl | hmem
        · exact Choice.isExhausted_iff.mpr (Nat.not_lt.mp hc)
        · exact hall c hmem

/-- If no alternative is granted then every choice is exhausted, and all but the oldest one are
abandoned. -/
lemma ChoiceStack.resume_of_no_resumption {stack : ChoiceStack S A}
    (h : stack.resume.resumption = none) :
    (∀ choice ∈ stack, choice.isExhausted = true) ∧
      stack.resume = ⟨stack.dropLast, none, []⟩ := by
  induction stack with
  | nil => simp [ChoiceStack.resume]
  | cons choice older ih =>
    by_cases hc : choice.cursor < choice.alternatives.length
    · simp [ChoiceStack.resume, hc] at h
    · have hchoice := Choice.isExhausted_iff.mpr (Nat.not_lt.mp hc)
      simp only [ChoiceStack.resume, dif_neg hc] at h ⊢
      cases older with
      | nil => simp [ChoiceStack.resume, hchoice]
      | cons next rest =>
        obtain ⟨hall, hresume⟩ := ih h
        refine ⟨?_, by simp [hresume]⟩
        intro c hmem
        rcases List.mem_cons.mp hmem with rfl | hmem
        · exact hchoice
        · exact hall c hmem

/-! ### Moves and ends -/

/-- What a move does that does not end a search. -/
inductive SearchSpace.Move (space : SearchSpace P A) (s : SearchState P A) :
    SearchState P A → Prop where
  | forced {action : Action} {next : P} (h : space.prospect s.position = .forced action next) :
      Move space s ⟨next, s.choices, s.trace.push (space.step next action)⟩
  | choose {first : A} {others : List A} (h : space.prospect s.position = .choice first others) :
      Move space s (space.choose s first others)
  | resume {reason : Action} {r : Resumption P A} {exhausted older : ChoiceStack P A}
      (h : space.prospect s.position = .deadEnd reason)
      (hstack : s.choices = exhausted ++ r.choice :: older)
      (hall : ∀ choice ∈ exhausted, choice.isExhausted = true) :
      Move space s ⟨space.take r.choice.snapshot r.alternative, r.choice.advance :: older,
        (s.trace.pushAll (exhausted.map space.abandonStep)).push (space.retryStep r)⟩

/-- How a search ends, and with which trace. -/
inductive SearchSpace.Ends (space : SearchSpace P A) (limit : Nat) (s : SearchState P A) :
    Trace → Prop where
  | limit (hlimit : limit ≤ s.trace.size) (hgoal : (space.prospect s.position).isGoal = false) :
      Ends space limit s (s.trace.push (space.step s.position (.stepLimit limit)))
  | goal {alternatives : List A} (h : space.prospect s.position = .goal alternatives) :
      Ends space limit s (s.trace.push (space.goalStep s.position alternatives))
  | breakdown {reason : Action} (h : space.prospect s.position = .breakdown reason) :
      Ends space limit s
        (s.trace.push { space.step s.position reason with success := some false })
  | deadEnd {reason : Action} (h : space.prospect s.position = .deadEnd reason)
      (hstack : s.choices = []) :
      Ends space limit s (s.trace.push (space.giveUp s.position reason))
  | exhausted {reason : Action} (h : space.prospect s.position = .deadEnd reason)
      (hstack : s.choices ≠ []) (hall : ∀ choice ∈ s.choices, choice.isExhausted = true) :
      Ends space limit s
        ((s.trace.pushAll (s.choices.dropLast.map space.abandonStep)).push
          (space.giveUp s.position .alternativesExhausted))

/-- Moves one after the other, each made before the trace has reached the limit. -/
def SearchSpace.Reaches (space : SearchSpace P A) (limit : Nat) :
    SearchState P A → SearchState P A → Prop :=
  Relation.ReflTransGen fun s next => s.trace.size < limit ∧ space.Move s next

variable {space : SearchSpace P A} {limit : Nat} {s next : SearchState P A} {trace : Trace}

lemma SearchSpace.move_of_proceed
    (h : space.proceed s (space.prospect s.position) = .running next) : space.Move s next := by
  cases hp : space.prospect s.position with
  | goal alternatives => simp [hp, proceed] at h
  | breakdown reason => simp [hp, proceed] at h
  | forced action position =>
    simp only [hp, proceed, Progress.running.injEq] at h
    exact h ▸ .forced hp
  | choice first others =>
    simp only [hp, proceed, Progress.running.injEq] at h
    exact h ▸ .choose hp
  | deadEnd reason =>
    simp only [hp, proceed, backtrack] at h
    split_ifs at h
    cases hr : s.choices.resume.resumption with
    | none => simp [hr] at h
    | some r =>
      obtain ⟨exhausted, older, hstack, hall, hresume⟩ := ChoiceStack.exists_of_resumption hr
      simp only [hresume, Progress.running.injEq] at h
      exact h ▸ .resume hp hstack hall

lemma SearchSpace.ends_of_proceed
    (h : space.proceed s (space.prospect s.position) = .ended trace) :
    space.Ends limit s trace := by
  cases hp : space.prospect s.position with
  | forced action position => simp [hp, proceed] at h
  | choice first others => simp [hp, proceed] at h
  | goal alternatives =>
    simp only [hp, proceed, Progress.ended.injEq] at h
    exact h ▸ .goal hp
  | breakdown reason =>
    simp only [hp, proceed, Progress.ended.injEq] at h
    exact h ▸ .breakdown hp
  | deadEnd reason =>
    simp only [hp, proceed, backtrack] at h
    split_ifs at h with hempty
    · simp only [Progress.ended.injEq] at h
      exact h ▸ .deadEnd hp (List.isEmpty_iff.mp hempty)
    · cases hr : s.choices.resume.resumption with
      | some r => simp [hr] at h
      | none =>
        obtain ⟨hall, hresume⟩ := ChoiceStack.resume_of_no_resumption hr
        simp only [hresume, Progress.ended.injEq] at h
        exact h ▸ .exhausted hp (mt List.isEmpty_iff.mpr hempty) hall

/-! ### Runs -/

lemma SearchSpace.run_of_limit (hlimit : limit ≤ s.trace.size)
    (hgoal : (space.prospect s.position).isGoal = false) :
    space.run limit s = s.trace.push (space.step s.position (.stepLimit limit)) := by
  rw [run, if_pos ⟨hlimit, hgoal⟩]

lemma SearchSpace.run_of_ended
    (hgo : ¬(limit ≤ s.trace.size ∧ (space.prospect s.position).isGoal = false))
    (h : space.proceed s (space.prospect s.position) = .ended trace) :
    space.run limit s = trace := by
  rw [run, if_neg hgo]
  split
  · next hended =>
    rw [h] at hended
    exact (Progress.ended.inj hended).symm
  · next hrunning =>
    rw [h] at hrunning
    cases hrunning

lemma SearchSpace.run_of_running
    (hgo : ¬(limit ≤ s.trace.size ∧ (space.prospect s.position).isGoal = false))
    (h : space.proceed s (space.prospect s.position) = .running next) :
    space.run limit s = space.run limit next := by
  rw [run, if_neg hgo]
  split
  · next hended =>
    rw [h] at hended
    cases hended
  · next hrunning =>
    rw [h] at hrunning
    rw [Progress.running.inj hrunning]

/-- A run is a sequence of moves followed by an end. -/
theorem SearchSpace.exists_ends (space : SearchSpace P A) (limit : Nat) (s : SearchState P A) :
    ∃ last, space.Reaches limit s last ∧ space.Ends limit last (space.run limit s) := by
  induction s using SearchSpace.run.induct space limit with
  | case1 s prospect hstop =>
    rw [run_of_limit hstop.1 hstop.2]
    exact ⟨s, .refl, .limit hstop.1 hstop.2⟩
  | case2 s prospect hgo trace hproceed =>
    rw [run_of_ended hgo hproceed]
    exact ⟨s, .refl, ends_of_proceed hproceed⟩
  | case3 s prospect hgo next hproceed ih =>
    rw [run_of_running hgo hproceed]
    obtain ⟨last, hreach, hends⟩ := ih
    have hsize : s.trace.size < limit := by
      by_contra hlimit
      exact hgo ⟨Nat.not_lt.mp hlimit, isGoal_eq_false_of_proceed hproceed⟩
    exact ⟨last, .head ⟨hsize, move_of_proceed hproceed⟩ hreach, hends⟩

/-! ### Growing traces -/

variable {step : Step}

lemma Trace.toList_isPrefix_push : trace.toList <+: (trace.push step).toList := by
  simp

lemma Trace.toList_isPrefix_pushAll {steps : List Step} :
    trace.toList <+: (trace.pushAll steps).toList := by
  simp

lemma SearchSpace.Move.grows (h : space.Move s next) : s.trace.toList <+: next.trace.toList := by
  cases h with
  | forced | choose => exact Trace.toList_isPrefix_push
  | resume => exact Trace.toList_isPrefix_pushAll.trans Trace.toList_isPrefix_push

lemma SearchSpace.Reaches.grows (h : space.Reaches limit s next) :
    s.trace.toList <+: next.trace.toList := by
  induction h with
  | refl => exact List.prefix_rfl
  | tail _ hmove ih => exact ih.trans hmove.2.grows

lemma SearchSpace.Ends.grows (h : space.Ends limit s trace) : s.trace.toList <+: trace.toList := by
  cases h with
  | limit | goal | breakdown | deadEnd => exact Trace.toList_isPrefix_push
  | exhausted => exact Trace.toList_isPrefix_pushAll.trans Trace.toList_isPrefix_push

/-- A run only adds steps to the trace. -/
lemma SearchSpace.grows_run : s.trace.toList <+: (space.run limit s).toList := by
  obtain ⟨last, hreach, hends⟩ := space.exists_ends limit s
  exact hreach.grows.trans hends.grows

end GrammarTrace
