import GrammarTrace.Proofs.Replay

/-!
# How far a run goes beyond its limit

The limit is checked before a move and not while choices are left for good, so a run may record more
steps than its limit says. Every choice that is left for good has been paid for by the step that made
it and by those that retried it (`SearchState.Accounted`), so these are at most half as many steps as
have been recorded before. Every run ends, and with few more steps than that
(`Strategy.run_ends_near_limit`).
-/

namespace GrammarTrace

/-- Whether the last step of a trace ends a run. -/
def Trace.IsEnded (trace : Trace) : Prop :=
  ∃ last, trace.last? = some last ∧ last.action.isEnding = true

/-- Whether a trace is as short as a run with a limit leaves it. -/
def Trace.IsNear (trace : Trace) (limit : Nat) : Prop := trace.size ≤ limit + limit / 2 + 2

variable {S P A : Type} {space : SearchSpace P A} {limit : Nat} {s next : SearchState P A}
  {trace : Trace}

/-! ### Accounts -/

/-- The number of alternatives that have been taken at the choices of a stack. -/
def ChoiceStack.taken : ChoiceStack S A → Nat
  | [] => 0
  | choice :: older => choice.cursor + taken older

/-- A search that has recorded a step for every alternative that it has taken at a choice of its
stack. -/
structure SearchState.Accounted (s : SearchState P A) : Prop where
  several : ∀ choice ∈ s.choices, 1 < choice.alternatives.length
  taken_le : ChoiceStack.taken s.choices ≤ s.trace.size

@[simp] lemma ChoiceStack.taken_nil : taken ([] : ChoiceStack S A) = 0 := rfl

@[simp] lemma ChoiceStack.taken_cons (choice : Choice S A) (older : ChoiceStack S A) :
    taken (choice :: older) = choice.cursor + taken older := rfl

@[simp] lemma ChoiceStack.taken_append (newer older : ChoiceStack S A) :
    taken (newer ++ older) = taken newer + taken older := by
  induction newer with
  | nil => simp
  | cons choice newer ih => simp [ih, Nat.add_assoc]

/-- At a choice with several alternatives at least two have been taken when none is left. -/
lemma ChoiceStack.two_mul_length_le {choices : ChoiceStack S A}
    (hseveral : ∀ choice ∈ choices, 1 < choice.alternatives.length)
    (hall : ∀ choice ∈ choices, choice.isExhausted = true) :
    2 * choices.length ≤ taken choices := by
  induction choices with
  | nil => simp
  | cons choice older ih =>
    rw [List.forall_mem_cons] at hseveral hall
    have holder := ih hseveral.2 hall.2
    have hchoice := Choice.isExhausted_iff.mp hall.1
    have hlength := hseveral.1
    rw [List.length_cons, taken_cons]
    omega

lemma SearchState.accounted_start {p : P} : (⟨p, [], trace⟩ : SearchState P A).Accounted where
  several := List.forall_mem_nil _
  taken_le := Nat.zero_le _

/-- Only choices on the stack are left for good, each with two steps of its own. -/
lemma SearchState.Accounted.two_mul_length_le {exhausted older : ChoiceStack P A}
    (hs : s.Accounted) (hstack : s.choices = exhausted ++ older)
    (hall : ∀ choice ∈ exhausted, choice.isExhausted = true) :
    2 * exhausted.length ≤ s.trace.size := by
  have hseveral : ∀ choice ∈ exhausted, 1 < choice.alternatives.length := by
    intro choice hchoice
    exact hs.several choice (hstack ▸ List.mem_append_left _ hchoice)
  have htaken := hs.taken_le
  rw [hstack, ChoiceStack.taken_append] at htaken
  calc 2 * exhausted.length
    _ ≤ ChoiceStack.taken exhausted := ChoiceStack.two_mul_length_le hseveral hall
    _ ≤ s.trace.size := Nat.le_of_add_right_le htaken

/-! ### Moves -/

lemma SearchSpace.Move.accounted (h : space.Move s next) (hs : s.Accounted) :
    next.Accounted := by
  have htaken := hs.taken_le
  cases h with
  | forced =>
    refine ⟨hs.several, ?_⟩
    rw [Trace.size_push]
    exact Nat.le_succ_of_le htaken
  | @choose first others h =>
    simp only [SearchSpace.choose]
    split_ifs with hothers
    · refine ⟨hs.several, ?_⟩
      rw [Trace.size_push]
      exact Nat.le_succ_of_le htaken
    · -- the step that makes a choice pays for its first alternative
      have hpos : 0 < others.length := List.length_pos_iff.mpr (mt List.isEmpty_iff.mpr hothers)
      constructor
      · rw [List.forall_mem_cons]
        refine ⟨?_, hs.several⟩
        rw [List.length_cons]
        omega
      · rw [ChoiceStack.taken_cons, Trace.size_push]
        dsimp only
        omega
  | @resume _ r exhausted older h hstack hall =>
    have hseveral := hs.several
    rw [hstack, List.forall_mem_append, List.forall_mem_cons] at hseveral
    constructor
    · exact List.forall_mem_cons.mpr hseveral.2
    · -- a retry pays for one more alternative
      have hcursor : r.choice.advance.cursor = r.choice.cursor + 1 := rfl
      rw [hstack, ChoiceStack.taken_append, ChoiceStack.taken_cons] at htaken
      rw [ChoiceStack.taken_cons, hcursor, Trace.size_push, Trace.size_pushAll]
      omega

/-- A move records at most half as many steps as there are, and one more. -/
lemma SearchSpace.Move.two_mul_size_le (h : space.Move s next) (hs : s.Accounted) :
    2 * next.trace.size ≤ 3 * s.trace.size + 2 := by
  cases h with
  | forced =>
    rw [Trace.size_push]
    omega
  | choose =>
    rw [SearchSpace.choose, Trace.size_push]
    omega
  | resume h hstack hall =>
    have hpaid := hs.two_mul_length_le hstack hall
    rw [Trace.size_push, Trace.size_pushAll, List.length_map]
    omega

lemma SearchSpace.Ends.two_mul_size_le (h : space.Ends limit s trace) (hs : s.Accounted) :
    2 * trace.size ≤ 3 * s.trace.size + 2 := by
  cases h with
  | limit | goal | breakdown | deadEnd =>
    rw [Trace.size_push]
    omega
  | exhausted h hstack hall =>
    have hpaid := hs.two_mul_length_le (List.dropLast_concat_getLast hstack).symm
      fun choice hchoice => hall choice (List.dropLast_subset _ hchoice)
    rw [Trace.size_push, Trace.size_pushAll, List.length_map]
    omega

/-! ### Searches -/

/-- A search goes on only below its limit, from where one move does not lead far. -/
lemma SearchSpace.isNear_run (hs : s.Accounted) (hsize : s.trace.size ≤ limit + limit / 2 + 1) :
    (space.run limit s).IsNear limit := by
  induction s using SearchSpace.run.induct space limit with
  | case1 s prospect hstop =>
    rw [run_of_limit hstop.1 hstop.2, Trace.IsNear, Trace.size_push]
    omega
  | case2 s prospect hgo trace hproceed =>
    rw [run_of_ended hgo hproceed]
    by_cases hgoal : (space.prospect s.position).isGoal = true
    · -- reaching the goal takes one step, also at the limit
      have hends : space.Ends limit s trace := ends_of_proceed hproceed
      cases hends with
      | goal =>
        rw [Trace.IsNear, Trace.size_push]
        omega
      | limit _ h => rw [h] at hgoal; cases hgoal
      | breakdown h | deadEnd h | exhausted h => rw [h] at hgoal; cases hgoal
    · have hbelow : s.trace.size < limit := by
        by_contra hlimit
        exact hgo ⟨Nat.not_lt.mp hlimit, Bool.eq_false_iff.mpr hgoal⟩
      have hends : space.Ends limit s trace := ends_of_proceed hproceed
      have hend := hends.two_mul_size_le hs
      rw [Trace.IsNear]
      omega
  | case3 s prospect hgo next hproceed ih =>
    rw [run_of_running hgo hproceed]
    have hbelow : s.trace.size < limit := by
      by_contra hlimit
      exact hgo ⟨Nat.not_lt.mp hlimit, isGoal_eq_false_of_proceed hproceed⟩
    have hmove := move_of_proceed hproceed
    have hnext := hmove.two_mul_size_le hs
    exact ih (hmove.accounted hs) (by omega)

/-! ### Strategies -/

variable {g : Grammar} {input : String} {before after : SearchState Form Reduction}
  {classes : List (String × List Production)}

lemma Grammar.ReplacesTo.accounted (h : ReplacesTo classes limit before after)
    (hbefore : before.Accounted) : after.Accounted := by
  induction h with
  | refl => exact hbefore
  | tail _ hstep _ =>
    cases hstep.2 with
    | intro => exact SearchState.accounted_start

/-- The limit is checked before every replacement of a terminal. -/
lemma Grammar.ReplacesTo.size_le (h : ReplacesTo classes limit before after)
    (hbefore : before.trace.size ≤ limit + 1) : after.trace.size ≤ limit + 1 := by
  induction h with
  | refl => exact hbefore
  | tail _ hstep _ =>
    have hbelow := hstep.1
    cases hstep.2 with
    | intro =>
      rw [Trace.size_push]
      exact Nat.succ_le_succ (Nat.le_of_lt hbelow)

theorem Grammar.isNear_searchDerivation (g : Grammar) (input : String) (limit : Nat) :
    (g.searchDerivation input limit).IsNear limit :=
  SearchSpace.isNear_run SearchState.accounted_start (Nat.zero_le _)

theorem Grammar.isNear_searchReduction (g : Grammar) (input : String) (limit : Nat) :
    (g.searchReduction input limit).IsNear limit := by
  cases htokens : scan .char input with
  | error e =>
    rw [searchReduction, htokens, Trace.IsNear, Trace.size_push, Trace.size_empty]
    omega
  | ok tokens =>
    obtain ⟨state, hreach, hends⟩ := g.exists_replacesLast limit tokens
    have hsize : state.trace.size ≤ limit + 1 := hreach.size_le (by simp)
    rw [searchReduction, htokens]
    dsimp only
    generalize g.normalize limit tokens = progress at hends
    cases hends with
    | done =>
      have haccounted := hreach.accounted SearchState.accounted_start
      exact SearchSpace.isNear_run haccounted (by omega)
    | stopped =>
      rw [Trace.IsNear, Trace.size_push]
      omega

theorem Grammar.isEnded_searchDerivation (g : Grammar) (input : String) (limit : Nat) :
    (g.searchDerivation input limit).IsEnded := by
  have hview : some (g.derivationOf input).view = g.derivationView input := by
    simp [Derivation.view, derivationOf, derivationView]
  have hstart : g.derivations.Replayed Derivation.view (g.derivationView input)
      (fun _ _ => True) ⟨g.derivationOf input, [], .empty⟩ :=
    ⟨obeys_nil, hview.symm, hview.symm, List.forall_mem_nil _⟩
  exact (hstart.completes_run g.isDisplayed_derivations (fun _ _ _ => trivial) limit).ending

theorem Grammar.isEnded_searchReduction (g : Grammar) (input : String) (limit : Nat) :
    (g.searchReduction input limit).IsEnded := by
  cases htokens : scan .char input with
  | error e =>
    rw [searchReduction, htokens]
    exact ⟨_, Trace.last?_push .., rfl⟩
  | ok tokens => exact (completes_searchReduction limit htokens).ending

/-- Every run ends, with at most half as many steps beyond its limit as the limit allows, and two
more. -/
theorem Strategy.run_ends_near_limit (strategy : Strategy) (g : Grammar) (input : String)
    (limit : Nat) :
    (strategy.run g input limit).IsEnded ∧
      (strategy.run g input limit).size ≤ limit + limit / 2 + 2 := by
  cases strategy with
  | topDown => exact ⟨g.isEnded_searchDerivation input limit, g.isNear_searchDerivation input limit⟩
  | bottomUp => exact ⟨g.isEnded_searchReduction input limit, g.isNear_searchReduction input limit⟩

end GrammarTrace
