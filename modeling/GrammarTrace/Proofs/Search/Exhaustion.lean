import GrammarTrace.Proofs.Search.Moves

/-!
# A search that gives up has tried everything

`SearchSpace.Succeeds` are the ways from a position to the goal, each named by the numbers of the
alternatives that it takes. As long as one of them leads on from where the search started, one leads
on from its current position or from an untried alternative of one of its choices
(`SearchSpace.Reaches.isOpen`). A search that gives up has neither.
-/

namespace GrammarTrace

variable {P A : Type}

/-! ### Ways to the goal -/

/-- A way from a position to the goal, with the numbers of the alternatives that it takes. -/
inductive SearchSpace.Succeeds (space : SearchSpace P A) : P → List Nat → Prop where
  | goal {p : P} {alternatives : List A} (h : space.prospect p = .goal alternatives) :
      Succeeds space p []
  | forced {p : P} {action : Action} {next : P} {path : List Nat}
      (h : space.prospect p = .forced action next) (hpath : Succeeds space next path) :
      Succeeds space p path
  | choice {p : P} {first : A} {others : List A} {i : Nat} {a : A} {path : List Nat}
      (h : space.prospect p = .choice first others) (ha : (first :: others)[i]? = some a)
      (hpath : Succeeds space (space.take p a) path) : Succeeds space p (i :: path)

/-- Whether some way leads from a position to the goal. -/
def SearchSpace.Solvable (space : SearchSpace P A) (p : P) : Prop := ∃ path, space.Succeeds p path

variable {space : SearchSpace P A} {limit : Nat} {s next : SearchState P A} {p q : P}
  {first a : A} {others : List A} {action reason : Action}

lemma SearchSpace.solvable_of_goal {alternatives : List A}
    (h : space.prospect p = .goal alternatives) : space.Solvable p :=
  ⟨[], .goal h⟩

lemma SearchSpace.solvable_of_forced (h : space.prospect p = .forced action q)
    (hq : space.Solvable q) : space.Solvable p := by
  obtain ⟨path, hpath⟩ := hq
  exact ⟨path, .forced h hpath⟩

lemma SearchSpace.solvable_of_choice (h : space.prospect p = .choice first others)
    (ha : a ∈ first :: others) (hsolvable : space.Solvable (space.take p a)) :
    space.Solvable p := by
  obtain ⟨path, hpath⟩ := hsolvable
  obtain ⟨i, hi⟩ := List.mem_iff_getElem?.mp ha
  exact ⟨i :: path, .choice h hi hpath⟩

lemma SearchSpace.Solvable.of_forced (hp : space.Solvable p)
    (h : space.prospect p = .forced action q) : space.Solvable q := by
  obtain ⟨path, hpath⟩ := hp
  cases hpath with
  | goal hgoal => simp [h] at hgoal
  | choice hchoice => simp [h] at hchoice
  | forced hforced hpath =>
    simp only [h, Prospect.forced.injEq] at hforced
    exact ⟨path, hforced.2 ▸ hpath⟩

lemma SearchSpace.Solvable.exists_alternative (hp : space.Solvable p)
    (h : space.prospect p = .choice first others) :
    ∃ (i : Nat) (a : A), (first :: others)[i]? = some a ∧ space.Solvable (space.take p a) := by
  obtain ⟨path, hpath⟩ := hp
  cases hpath with
  | goal hgoal => simp [h] at hgoal
  | forced hforced => simp [h] at hforced
  | choice hchoice ha hpath =>
    simp only [h, Prospect.choice.injEq] at hchoice
    obtain ⟨rfl, rfl⟩ := hchoice
    exact ⟨_, _, ha, _, hpath⟩

lemma SearchSpace.not_solvable_of_deadEnd (h : space.prospect p = .deadEnd reason) :
    ¬space.Solvable p := by
  rintro ⟨path, hpath⟩
  cases hpath with
  | goal hgoal => simp [h] at hgoal
  | forced hforced => simp [h] at hforced
  | choice hchoice => simp [h] at hchoice

/-! ### Ways that are still open -/

/-- Whether an untried alternative of a choice leads to the goal. -/
def SearchSpace.IsPromising (space : SearchSpace P A) (choice : Choice P A) : Prop :=
  ∃ (i : Nat) (a : A), choice.cursor ≤ i ∧ choice.alternatives[i]? = some a ∧
    space.Solvable (space.take choice.snapshot a)

/-- Whether a way to the goal leads on from the position of a search or from one of its choices. -/
def SearchSpace.IsOpen (space : SearchSpace P A) (s : SearchState P A) : Prop :=
  space.Solvable s.position ∨ ∃ choice ∈ s.choices, space.IsPromising choice

lemma SearchSpace.not_isPromising_of_isExhausted {choice : Choice P A}
    (h : choice.isExhausted = true) : ¬space.IsPromising choice := by
  rintro ⟨i, a, hcursor, ha, -⟩
  have hi : i < choice.alternatives.length := (List.getElem?_eq_some_iff.mp ha).1
  have := Choice.isExhausted_iff.mp h
  omega

lemma SearchSpace.isOpen_choose (hp : space.Solvable s.position)
    (h : space.prospect s.position = .choice first others) :
    space.IsOpen (space.choose s first others) := by
  obtain ⟨i, a, ha, hsolvable⟩ := hp.exists_alternative h
  cases i with
  | zero =>
    rw [List.getElem?_cons_zero, Option.some.injEq] at ha
    exact .inl (ha ▸ hsolvable)
  | succ i =>
    -- a later alternative exists, so the choice has been kept
    have hothers : others.isEmpty = false := by
      cases others with
      | nil => simp at ha
      | cons => rfl
    refine .inr ⟨⟨s.position, first :: others, s.trace.size, 1⟩, ?_, ?_⟩
    · simp [choose, hothers]
    · exact ⟨i + 1, a, by simp, ha, hsolvable⟩

lemma SearchSpace.isOpen_resume {r : Resumption P A} {older : ChoiceStack P A} {trace : Trace}
    {choice : Choice P A} (hmem : choice ∈ r.choice :: older)
    (hpromising : space.IsPromising choice) :
    space.IsOpen
      ⟨space.take r.choice.snapshot r.alternative, r.choice.advance :: older, trace⟩ := by
  rcases List.mem_cons.mp hmem with rfl | hmem
  · obtain ⟨i, a, hcursor, ha, hsolvable⟩ := hpromising
    rcases Nat.eq_or_lt_of_le hcursor with rfl | hlt
    · left
      have hgranted : r.alternative = a := by
        simpa [Resumption.alternative, List.getElem?_eq_getElem r.untried] using ha
      exact hgranted ▸ hsolvable
    · exact .inr ⟨r.choice.advance, List.mem_cons_self, i, a, hlt, ha, hsolvable⟩
  · exact .inr ⟨choice, List.mem_cons_of_mem _ hmem, hpromising⟩

lemma SearchSpace.Move.isOpen (h : space.Move s next) (hs : space.IsOpen s) :
    space.IsOpen next := by
  rcases hs with hp | ⟨choice, hmem, hpromising⟩
  · cases h with
    | forced h => exact .inl (hp.of_forced h)
    | choose h => exact isOpen_choose hp h
    | resume h => exact absurd hp (not_solvable_of_deadEnd h)
  · cases h with
    | forced h => exact .inr ⟨choice, hmem, hpromising⟩
    | choose h =>
      refine .inr ⟨choice, ?_, hpromising⟩
      simp only [SearchSpace.choose]
      split_ifs
      · exact hmem
      · exact List.mem_cons_of_mem _ hmem
    | resume h hstack hall =>
      rw [hstack, List.mem_append] at hmem
      rcases hmem with hmem | hmem
      · exact absurd hpromising (not_isPromising_of_isExhausted (hall choice hmem))
      · exact isOpen_resume hmem hpromising

lemma SearchSpace.Reaches.isOpen (h : space.Reaches limit s next) (hs : space.IsOpen s) :
    space.IsOpen next := by
  induction h with
  | refl => exact hs
  | tail _ hmove ih => exact hmove.2.isOpen ih

/-- No way led to the goal if a search comes to a dead end with every choice exhausted. -/
theorem SearchSpace.Reaches.not_solvable (h : space.Reaches limit s next)
    (hdeadEnd : space.prospect next.position = .deadEnd reason)
    (hall : ∀ choice ∈ next.choices, choice.isExhausted = true) : ¬space.Solvable s.position := by
  intro hsolvable
  rcases h.isOpen (.inl hsolvable) with hp | ⟨choice, hmem, hpromising⟩
  · exact not_solvable_of_deadEnd hdeadEnd hp
  · exact not_isPromising_of_isExhausted (hall choice hmem) hpromising

end GrammarTrace
