import Mathlib.Data.List.Induction
import Mathlib.Tactic.Common
import GrammarTrace.Trace

/-!
# Choices in a history

The steps of a trace make choices, take them up again and leave them for good. A step that goes back
to a choice names the step that made it. `Step.Follows` says which steps may be named after a
history and what is shown then, and `Coherent` that every step of a history obeys it. The choices
that have not been taken back are read off a history by `survivors`.
-/

namespace GrammarTrace

/-! ### Roles -/

/-- What a step of a search has to do with its choices. -/
inductive Role where
  /-- It makes a choice. -/
  | choice
  /-- It takes the next alternative of a choice. -/
  | retry
  /-- It leaves a choice for good. -/
  | abandonment
  /-- It ends a search that has nothing left to try. -/
  | exhaustion
  | other
deriving DecidableEq

/-- The role of a step with an action. -/
def Action.role : Action → Role
  | .expand .. | .reduce .. => .choice
  | .retry .. => .retry
  | .abandonExpansion _ | .abandonReduction _ => .abandonment
  | .noReductions | .alternativesExhausted | .inconclusive => .exhaustion
  | _ => .other

/-- Whether a step of a role has nothing to do with any single choice. -/
def Role.IsPlain (role : Role) : Prop := role = .other ∨ role = .exhaustion

lemma Role.IsPlain.ne_choice {role : Role} (h : role.IsPlain) : role ≠ .choice := by
  rintro rfl
  rcases h with h | h <;> cases h

lemma Role.IsPlain.ne_retry {role : Role} (h : role.IsPlain) : role ≠ .retry := by
  rintro rfl
  rcases h with h | h <;> cases h

lemma Role.IsPlain.ne_abandonment {role : Role} (h : role.IsPlain) : role ≠ .abandonment := by
  rintro rfl
  rcases h with h | h <;> cases h

/-! ### Histories -/

/-- The number of steps of a role that go back to the step numbered `t`. -/
def returns (role : Role) (steps : List Step) (t : Nat) : Nat :=
  steps.countP fun step => step.action.role = role ∧ step.backtrackTo = some t

/-- The step numbered `t` is `choice`, which had several alternatives. -/
structure BranchesAt (steps : List Step) (t : Nat) (choice : Step) : Prop where
  get : steps[t]? = some choice
  role : choice.action.role = .choice
  several : 1 < choice.candidates.length

/-- What a step that is recorded after some others may show of them. The first alternative of a
choice is taken when it is made, and one more at each retry. -/
inductive Step.Follows (earlier : List Step) (step : Step) : Prop where
  | plain (hrole : step.action.role.IsPlain)
  | choice {taken : Candidate} (hrole : step.action.role = .choice)
      (htaken : step.candidates[0]? = some taken) (hselected : step.selected = some taken)
  | retry {t : Nat} {choice : Step} {taken : Candidate} (hrole : step.action.role = .retry)
      (hto : step.backtrackTo = some t) (hchoice : BranchesAt earlier t choice)
      (hcandidates : step.candidates = choice.candidates)
      (htaken : choice.candidates[returns .retry earlier t + 1]? = some taken)
      (hselected : step.selected = some taken)
      (hlatest : ∀ u other, t < u → BranchesAt earlier u other →
        returns .retry earlier u + 1 = other.candidates.length)
  | abandonment {t : Nat} {choice : Step} (hrole : step.action.role = .abandonment)
      (hto : step.backtrackTo = some t) (hchoice : BranchesAt earlier t choice)
      (hretries : returns .retry earlier t + 1 = choice.candidates.length)
      (honce : returns .abandonment earlier t = 0)

/-- Whether every step stands in a relation to those before it. -/
def Obeys (law : List Step → Step → Prop) (steps : List Step) : Prop :=
  ∀ (i : Nat) (step : Step), steps[i]? = some step → law (steps.take i) step

/-- Whether every step may follow those before it. -/
def Coherent (steps : List Step) : Prop :=
  ∀ (i : Nat) (step : Step), steps[i]? = some step → step.Follows (steps.take i)

variable {role : Role} {steps : List Step} {step choice : Step} {t i : Nat}
  {law : List Step → Step → Prop}

lemma returns_push : returns role (steps ++ [step]) t =
    returns role steps t +
      if step.action.role = role ∧ step.backtrackTo = some t then 1 else 0 := by
  simp [returns, List.countP_append, List.countP_singleton]

lemma returns_push_of_not (h : ¬(step.action.role = role ∧ step.backtrackTo = some t)) :
    returns role (steps ++ [step]) t = returns role steps t := by
  rw [returns_push, if_neg h, Nat.add_zero]

lemma returns_push_self (hrole : step.action.role = role) (hto : step.backtrackTo = some t) :
    returns role (steps ++ [step]) t = returns role steps t + 1 := by
  simp [returns_push, hrole, hto]

lemma getElem?_push : (steps ++ [step])[i]? = some choice ↔
    steps[i]? = some choice ∨ (i = steps.length ∧ step = choice) := by
  rcases Nat.lt_trichotomy i steps.length with hlt | rfl | hgt
  · simp [List.getElem?_append_left hlt, Nat.ne_of_lt hlt]
  · simp
  · have hlong : (steps ++ [step]).length ≤ i := by simpa using Nat.succ_le_of_lt hgt
    simp [List.getElem?_eq_none hlong, List.getElem?_eq_none (Nat.le_of_lt hgt),
      Nat.ne_of_gt hgt]

lemma BranchesAt.lt (h : BranchesAt steps t choice) : t < steps.length :=
  (List.getElem?_eq_some_iff.mp h.get).1

lemma BranchesAt.push (h : BranchesAt steps t choice) : BranchesAt (steps ++ [step]) t choice :=
  ⟨getElem?_push.mpr (.inl h.get), h.role, h.several⟩

lemma BranchesAt.of_push (h : BranchesAt (steps ++ [step]) t choice) :
    BranchesAt steps t choice ∨ (t = steps.length ∧ step = choice) := by
  rcases getElem?_push.mp h.get with hget | hlast
  · exact .inl ⟨hget, h.role, h.several⟩
  · exact .inr hlast

lemma branchesAt_take : BranchesAt (steps.take i) t choice ↔ t < i ∧ BranchesAt steps t choice := by
  constructor
  · rintro ⟨hget, hrole, hseveral⟩
    rw [List.getElem?_take, Option.ite_none_right_eq_some] at hget
    exact ⟨hget.1, hget.2, hrole, hseveral⟩
  · rintro ⟨hlt, hget, hrole, hseveral⟩
    refine ⟨?_, hrole, hseveral⟩
    rw [List.getElem?_take_of_lt hlt, hget]

lemma Step.Follows.exists_target (h : step.Follows steps)
    (hrole : step.action.role = .retry ∨ step.action.role = .abandonment) :
    ∃ t choice, step.backtrackTo = some t ∧ BranchesAt steps t choice := by
  cases h with
  | plain hplain =>
    rcases hrole with hrole | hrole
    · exact absurd hrole hplain.ne_retry
    · exact absurd hrole hplain.ne_abandonment
  | choice hchoice => simp [hchoice] at hrole
  | retry _ hto hchoice => exact ⟨_, _, hto, hchoice⟩
  | abandonment _ hto hchoice => exact ⟨_, _, hto, hchoice⟩

lemma Step.Follows.of_choice (h : step.Follows steps) (hrole : step.action.role = .choice) :
    ∃ taken, step.candidates[0]? = some taken ∧ step.selected = some taken := by
  cases h with
  | plain hplain => exact absurd hrole hplain.ne_choice
  | choice _ htaken hselected => exact ⟨_, htaken, hselected⟩
  | retry hretry => simp [hretry] at hrole
  | abandonment habandon => simp [habandon] at hrole

lemma Step.Follows.of_retry (h : step.Follows steps) (hrole : step.action.role = .retry)
    (hto : step.backtrackTo = some t) :
    ∃ choice taken, BranchesAt steps t choice ∧ step.candidates = choice.candidates ∧
      choice.candidates[returns .retry steps t + 1]? = some taken ∧ step.selected = some taken ∧
      ∀ u other, t < u → BranchesAt steps u other →
        returns .retry steps u + 1 = other.candidates.length := by
  cases h with
  | plain hplain => exact absurd hrole hplain.ne_retry
  | choice hchoice => simp [hchoice] at hrole
  | abandonment habandon => simp [habandon] at hrole
  | retry _ hto' hchoice hcandidates htaken hselected hlatest =>
    obtain rfl : _ = t := Option.some.inj (hto'.symm.trans hto)
    exact ⟨_, _, hchoice, hcandidates, htaken, hselected, hlatest⟩

lemma Step.Follows.of_abandonment (h : step.Follows steps)
    (hrole : step.action.role = .abandonment) (hto : step.backtrackTo = some t) :
    ∃ choice, BranchesAt steps t choice ∧ returns .retry steps t + 1 = choice.candidates.length ∧
      returns .abandonment steps t = 0 := by
  cases h with
  | plain hplain => exact absurd hrole hplain.ne_abandonment
  | choice hchoice => simp [hchoice] at hrole
  | retry hretry => simp [hretry] at hrole
  | abandonment _ hto' hchoice hretries honce =>
    obtain rfl : _ = t := Option.some.inj (hto'.symm.trans hto)
    exact ⟨_, hchoice, hretries, honce⟩

lemma obeys_nil : Obeys law [] := by
  intro i step h
  simp at h

lemma Obeys.push (h : Obeys law steps) (hstep : law steps step) : Obeys law (steps ++ [step]) := by
  intro i other hget
  rcases getElem?_push.mp hget with hget | ⟨rfl, rfl⟩
  · have hi : i ≤ steps.length := Nat.le_of_lt (List.getElem?_eq_some_iff.mp hget).1
    rw [List.take_append_of_le_length hi]
    exact h i other hget
  · rwa [List.take_left]

lemma Obeys.of_push (h : Obeys law (steps ++ [step])) : Obeys law steps ∧ law steps step := by
  constructor
  · intro i other hget
    have hi : i ≤ steps.length := Nat.le_of_lt (List.getElem?_eq_some_iff.mp hget).1
    have hlaw := h i other (getElem?_push.mpr (.inl hget))
    rwa [List.take_append_of_le_length hi] at hlaw
  · have hlaw := h steps.length step (getElem?_push.mpr (.inr ⟨rfl, rfl⟩))
    rwa [List.take_left] at hlaw

lemma coherent_nil : Coherent [] := obeys_nil

lemma Coherent.push (h : Coherent steps) (hstep : step.Follows steps) :
    Coherent (steps ++ [step]) :=
  Obeys.push h hstep

/-- No step goes back to one that has not been recorded yet. -/
lemma Coherent.returns_eq_zero (h : Coherent steps) (hrole : role = .retry ∨ role = .abandonment)
    (ht : steps.length ≤ t) : returns role steps t = 0 := by
  rw [returns, List.countP_eq_zero]
  intro step hmem
  obtain ⟨i, hi⟩ := List.mem_iff_getElem?.mp hmem
  simp only [decide_eq_true_eq, not_and]
  -- whatever a step goes back to was recorded before it
  rintro rfl hto
  obtain ⟨u, choice, hu, hchoice⟩ := (h i step hi).exists_target hrole
  rw [hto, Option.some.injEq] at hu
  have hlt := hchoice.lt
  rw [List.length_take] at hlt
  omega

lemma Coherent.of_push (h : Coherent (steps ++ [step])) : Coherent steps ∧ step.Follows steps :=
  Obeys.of_push h

lemma Coherent.returns_abandonment_le (h : Coherent steps) (t : Nat) :
    returns .abandonment steps t ≤ 1 := by
  induction steps using List.reverseRecOn with
  | nil => simp [returns]
  | append_singleton steps step ih =>
    obtain ⟨hsteps, hstep⟩ := h.of_push
    by_cases hself : step.action.role = .abandonment ∧ step.backtrackTo = some t
    · obtain ⟨choice, -, -, honce⟩ := hstep.of_abandonment hself.1 hself.2
      exact Nat.le_of_eq (by rw [returns_push_self hself.1 hself.2, honce])
    · rw [returns_push_of_not hself]
      exact ih hsteps

/-! ### Surviving choices -/

/-- A choice that has not been taken back, with the number of the alternative that was taken. -/
structure Survivor where
  /-- The step that made the choice. -/
  step : Nat
  index : Nat
deriving DecidableEq, Repr

/-- What a step that is recorded after some others makes of the choices that stood before it. A
retry takes back all choices that were made after the one to which it goes back, and replaces the
alternative that was taken there. -/
def Step.revise (earlier : List Step) (step : Step) (standing : List Survivor) : List Survivor :=
  match step.action.role, step.backtrackTo with
  | .choice, _ => standing ++ [⟨earlier.length, 0⟩]
  | .retry, some t =>
    standing.takeWhile (fun survivor => survivor.step ≠ t) ++ [⟨t, returns .retry earlier t + 1⟩]
  | _, _ => standing

/-- The choices that stand after some more steps. -/
def survivorsFrom (earlier : List Step) (standing : List Survivor) : List Step → List Survivor
  | [] => standing
  | step :: rest => survivorsFrom (earlier ++ [step]) (step.revise earlier standing) rest

/-- The choices that stand at the end of a history. -/
def survivors (steps : List Step) : List Survivor := survivorsFrom [] [] steps

/-- The numbers of the alternatives that were taken. -/
def indices (standing : List Survivor) : List Nat := standing.map Survivor.index

variable {earlier : List Step} {standing before after : List Survivor}

lemma survivorsFrom_push : survivorsFrom earlier standing (steps ++ [step]) =
    step.revise (earlier ++ steps) (survivorsFrom earlier standing steps) := by
  induction steps generalizing earlier standing with
  | nil => simp [survivorsFrom]
  | cons next rest ih => simp [survivorsFrom, ih]

lemma survivors_push : survivors (steps ++ [step]) = step.revise steps (survivors steps) := by
  rw [survivors, survivorsFrom_push, List.nil_append, survivors]

lemma Step.revise_choice (hrole : step.action.role = .choice) :
    step.revise earlier standing = standing ++ [⟨earlier.length, 0⟩] := by
  rw [revise, hrole]

lemma Step.revise_retry (hrole : step.action.role = .retry) (hto : step.backtrackTo = some t)
    {i : Nat} (hbefore : ∀ survivor ∈ before, survivor.step < t) :
    step.revise earlier (before ++ ⟨t, i⟩ :: after) =
      before ++ [⟨t, returns .retry earlier t + 1⟩] := by
  rw [revise, hrole, hto]
  have hkept : ∀ survivor ∈ before, decide (survivor.step ≠ t) = true := by
    intro survivor hmem
    exact decide_eq_true (Nat.ne_of_lt (hbefore survivor hmem))
  dsimp only
  rw [List.takeWhile_append_of_pos hkept]
  simp

lemma Step.revise_of_role (hchoice : step.action.role ≠ .choice)
    (hretry : step.action.role ≠ .retry) : step.revise earlier standing = standing := by
  rw [revise]
  split
  · next hrole => exact absurd hrole hchoice
  · next hrole _ => exact absurd hrole hretry
  · rfl

lemma survivors_push_of_role (hchoice : step.action.role ≠ .choice)
    (hretry : step.action.role ≠ .retry) : survivors (steps ++ [step]) = survivors steps := by
  rw [survivors_push, Step.revise_of_role hchoice hretry]

lemma survivors_append_of_role {more : List Step}
    (h : ∀ step ∈ more, step.action.role ≠ .choice ∧ step.action.role ≠ .retry) :
    survivors (steps ++ more) = survivors steps := by
  induction more using List.reverseRecOn with
  | nil => rw [List.append_nil]
  | append_singleton more step ih =>
    rw [List.forall_mem_append, List.forall_mem_singleton] at h
    rw [← List.append_assoc, survivors_push_of_role h.2.1 h.2.2, ih h.1]

@[simp] lemma indices_push {id i : Nat} :
    indices (standing ++ [⟨id, i⟩]) = indices standing ++ [i] := by
  simp [indices]

end GrammarTrace
