import GrammarTrace.Proofs.History
import GrammarTrace.Proofs.Search.Moves

/-!
# Histories and stacks of choices

What a search has recorded and the stack of its choices belong together (`SearchSpace.Linked`): the
choices on the stack have been retried as often as their cursors say, and all others as often as
they could. Every move of a search preserves that (`SearchSpace.Move.linked`).
-/

namespace GrammarTrace

variable {P A : Type} {steps : List Step} {step choice : Step}

/-! ### Histories and stacks -/

/-- The history of a choice on the stack: it has been retried as often as its cursor says. -/
structure SearchSpace.Pending (space : SearchSpace P A) (steps : List Step) (c : Choice P A) :
    Prop where
  made : ∃ choice, BranchesAt steps c.step choice ∧
    choice.candidates = c.alternatives.map (space.candidate c.snapshot)
  retried : returns .retry steps c.step + 1 = c.cursor
  kept : returns .abandonment steps c.step = 0
  cursor_le : c.cursor ≤ c.alternatives.length

/-- A history together with the stack of its choices. Choices that are no longer on the stack have
been retried as often as they could. -/
structure SearchSpace.Linked (space : SearchSpace P A) (steps : List Step)
    (choices : ChoiceStack P A) : Prop where
  coherent : Coherent steps
  ordered : choices.Pairwise fun c older => older.step < c.step
  pending : ∀ c ∈ choices, space.Pending steps c
  settled : ∀ t choice, BranchesAt steps t choice → (∃ c ∈ choices, c.step = t) ∨
    returns .retry steps t + 1 = choice.candidates.length

variable {space : SearchSpace P A} {choices older : ChoiceStack P A} {c : Choice P A}

lemma SearchSpace.Pending.push (h : space.Pending steps c)
    (hto : step.action.role = .retry ∨ step.action.role = .abandonment →
      step.backtrackTo ≠ some c.step) : space.Pending (steps ++ [step]) c where
  made := by
    obtain ⟨choice, hchoice, hcandidates⟩ := h.made
    exact ⟨choice, hchoice.push, hcandidates⟩
  retried := by
    rw [returns_push_of_not fun hself => hto (.inl hself.1) hself.2]
    exact h.retried
  kept := by
    rw [returns_push_of_not fun hself => hto (.inr hself.1) hself.2]
    exact h.kept
  cursor_le := h.cursor_le

lemma SearchSpace.Pending.candidates_eq (h : space.Pending steps c)
    (hchoice : BranchesAt steps c.step choice) :
    choice.candidates = c.alternatives.map (space.candidate c.snapshot) := by
  obtain ⟨made, hmade, hcandidates⟩ := h.made
  have heq : some choice = some made := hchoice.get.symm.trans hmade.get
  rw [Option.some.inj heq, hcandidates]

/-- A choice that has been tried in full need not be kept. -/
lemma SearchSpace.Linked.drop (h : space.Linked steps (c :: older)) (hc : c.isExhausted = true) :
    space.Linked steps older where
  coherent := h.coherent
  ordered := h.ordered.of_cons
  pending d hd := h.pending d (List.mem_cons_of_mem _ hd)
  settled := by
    intro t choice hchoice
    rcases h.settled t choice hchoice with ⟨d, hd, rfl⟩ | hretries
    · rcases List.mem_cons.mp hd with rfl | hd
      · right
        have hpending := h.pending d List.mem_cons_self
        rw [hpending.retried, hpending.candidates_eq hchoice, List.length_map]
        exact Nat.le_antisymm hpending.cursor_le (Choice.isExhausted_iff.mp hc)
      · exact .inl ⟨d, hd, rfl⟩
    · exact .inr hretries

/-- A step that neither branches nor retries leaves the stack as it is. -/
lemma SearchSpace.Linked.push (h : space.Linked steps choices) (hstep : step.Follows steps)
    (hretry : step.action.role ≠ .retry)
    (habandon : step.action.role = .abandonment → ∀ d ∈ choices, step.backtrackTo ≠ some d.step)
    (hsole : step.action.role = .choice → step.candidates.length ≤ 1) :
    space.Linked (steps ++ [step]) choices where
  coherent := h.coherent.push hstep
  ordered := h.ordered
  pending := by
    intro d hd
    apply (h.pending d hd).push
    rintro (hrole | hrole)
    · exact absurd hrole hretry
    · exact habandon hrole d hd
  settled := by
    intro t choice hchoice
    rcases hchoice.of_push with hold | ⟨-, rfl⟩
    · rw [returns_push_of_not fun hself => hretry hself.1]
      exact h.settled t choice hold
    · have := hsole hchoice.role
      have := hchoice.several
      omega

lemma SearchSpace.Linked.push_plain (h : space.Linked steps choices)
    (hrole : step.action.role.IsPlain) : space.Linked (steps ++ [step]) choices := by
  apply h.push (.plain hrole) hrole.ne_retry
  · intro habandon
    exact absurd habandon hrole.ne_abandonment
  · intro hchoice
    exact absurd hchoice hrole.ne_choice

/-- Before a search has made a choice, its history goes with the empty stack. -/
lemma SearchSpace.linked_of_plain (h : ∀ step ∈ steps, step.action.role.IsPlain) :
    space.Linked steps [] := by
  induction steps using List.reverseRecOn with
  | nil =>
    refine ⟨coherent_nil, .nil, List.forall_mem_nil _, ?_⟩
    intro t choice hchoice
    exact absurd hchoice.lt (Nat.not_lt_zero t)
  | append_singleton steps step ih =>
    rw [List.forall_mem_append, List.forall_mem_singleton] at h
    exact (ih h.1).push_plain h.2

/-- A new choice is pending, since no step can have gone back to it yet. -/
lemma SearchSpace.Linked.pending_new (h : space.Linked steps choices)
    (hchoice : BranchesAt (steps ++ [step]) steps.length step) (hc : c.step = steps.length)
    (hcursor : c.cursor = 1)
    (hcandidates : step.candidates = c.alternatives.map (space.candidate c.snapshot)) :
    space.Pending (steps ++ [step]) c := by
  have hnone : ∀ role : Role, role = .retry ∨ role = .abandonment →
      returns role (steps ++ [step]) c.step = 0 := by
    intro role hrole
    rw [returns_push_of_not, hc]
    · exact h.coherent.returns_eq_zero hrole (Nat.le_refl _)
    · rintro ⟨rfl, -⟩
      simp [hchoice.role] at hrole
  refine ⟨⟨step, hc ▸ hchoice, hcandidates⟩, ?_, hnone _ (.inr rfl), ?_⟩
  · rw [hnone _ (.inl rfl), hcursor]
  · have hseveral := hchoice.several
    rw [hcandidates, List.length_map] at hseveral
    omega

/-- A choice between several alternatives goes onto the stack. -/
lemma SearchSpace.Linked.push_choice (h : space.Linked steps choices) (hstep : step.Follows steps)
    (hchoice : BranchesAt (steps ++ [step]) steps.length step) (hc : c.step = steps.length)
    (hcursor : c.cursor = 1)
    (hcandidates : step.candidates = c.alternatives.map (space.candidate c.snapshot)) :
    space.Linked (steps ++ [step]) (c :: choices) where
  coherent := h.coherent.push hstep
  ordered := by
    refine List.pairwise_cons.mpr ⟨?_, h.ordered⟩
    intro d hd
    obtain ⟨made, hmade, -⟩ := (h.pending d hd).made
    exact hc ▸ hmade.lt
  pending := by
    intro d hd
    rcases List.mem_cons.mp hd with rfl | hd
    · exact h.pending_new hchoice hc hcursor hcandidates
    · apply (h.pending d hd).push
      rintro (hrole | hrole) <;> simp [hchoice.role] at hrole
  settled := by
    intro t other hother
    rcases hother.of_push with hold | ⟨rfl, -⟩
    · rw [returns_push_of_not fun hself => by simp [hchoice.role] at hself]
      rcases h.settled t other hold with ⟨d, hd, hdt⟩ | hretries
      · exact .inl ⟨d, List.mem_cons_of_mem _ hd, hdt⟩
      · exact .inr hretries
    · exact .inl ⟨c, List.mem_cons_self, hc⟩

/-! ### Moves -/

/-- A search space whose actions have the roles in which they are used. -/
structure SearchSpace.IsLabelled (space : SearchSpace P A) : Prop where
  step (p : P) (action : Action) : (space.step p action).action = action
  chosen (taken : Candidate) : (space.chosen taken).role = .choice
  abandoned (p : P) : (space.abandoned p).role = .abandonment
  forced {p next : P} {action : Action} :
    space.prospect p = .forced action next → action.role = .other
  breakdown {p : P} {reason : Action} :
    space.prospect p = .breakdown reason → reason.role = .other
  deadEnd {p : P} {reason : Action} : space.prospect p = .deadEnd reason → reason.role.IsPlain
  giveUp {reason : Action} (p : P) :
    reason.role.IsPlain → (space.giveUp p reason).action.role.IsPlain

variable {limit : Nat} {s next : SearchState P A} {trace : Trace} {p : P} {first : A}
  {others : List A}

lemma SearchSpace.IsLabelled.role_choiceStep (hspace : space.IsLabelled) (p : P) (first : A)
    (others : List A) : (space.choiceStep p first others).action.role = .choice := by
  change (space.step (space.take p first) (space.chosen _)).action.role = .choice
  rw [hspace.step, hspace.chosen]

lemma SearchSpace.IsLabelled.role_retryStep (hspace : space.IsLabelled) (r : Resumption P A) :
    (space.retryStep r).action.role = .retry := by
  change (space.step (space.take r.choice.snapshot r.alternative) _).action.role = .retry
  rw [hspace.step]
  rfl

lemma SearchSpace.IsLabelled.role_abandonStep (hspace : space.IsLabelled) (c : Choice P A) :
    (space.abandonStep c).action.role = .abandonment := by
  change (space.step c.snapshot (space.abandoned c.snapshot)).action.role = .abandonment
  rw [hspace.step, hspace.abandoned]

lemma SearchSpace.IsLabelled.follows_choiceStep (hspace : space.IsLabelled) :
    (space.choiceStep p first others).Follows steps :=
  .choice (hspace.role_choiceStep p first others) rfl rfl

lemma SearchSpace.candidates_choiceStep :
    (space.choiceStep p first others).candidates =
      (first :: others).map (space.candidate p) := rfl

lemma SearchSpace.Linked.choose (hspace : space.IsLabelled)
    (h : space.Linked s.trace.toList s.choices) :
    space.Linked (space.choose s first others).trace.toList
      (space.choose s first others).choices := by
  simp only [SearchSpace.choose, Trace.toList_push]
  split_ifs with hothers
  · -- a sole alternative is taken, and nothing is left to go back to
    apply h.push hspace.follows_choiceStep
    · simp [hspace.role_choiceStep]
    · simp [hspace.role_choiceStep]
    · rw [List.isEmpty_iff.mp hothers]
      simp [candidates_choiceStep]
  · have hseveral : 1 < (space.choiceStep s.position first others).candidates.length := by
      have hpos := List.length_pos_iff.mpr (mt List.isEmpty_iff.mpr hothers)
      rw [candidates_choiceStep, List.length_map, List.length_cons]
      omega
    refine h.push_choice hspace.follows_choiceStep ⟨?_, ?_, hseveral⟩ ?_ rfl rfl
    · simp
    · exact hspace.role_choiceStep ..
    · exact (Trace.length_toList s.trace).symm

lemma SearchSpace.Linked.abandon (hspace : space.IsLabelled)
    (h : space.Linked steps (c :: older)) (hc : c.isExhausted = true) :
    space.Linked (steps ++ [space.abandonStep c]) older := by
  have hpending := h.pending c List.mem_cons_self
  obtain ⟨choice, hchoice, hcandidates⟩ := hpending.made
  have hrole := hspace.role_abandonStep c
  apply (h.drop hc).push
  · refine .abandonment hrole rfl hchoice ?_ hpending.kept
    rw [hpending.retried, hcandidates, List.length_map]
    exact Nat.le_antisymm hpending.cursor_le (Choice.isExhausted_iff.mp hc)
  · simp [hrole]
  · intro _ d hd hto
    have hlt := (List.pairwise_cons.mp h.ordered).1 d hd
    have heq : c.step = d.step := Option.some.inj hto
    omega
  · simp [hrole]

lemma SearchSpace.Linked.abandonAll (hspace : space.IsLabelled) {exhausted : ChoiceStack P A}
    (h : space.Linked steps (exhausted ++ choices))
    (hall : ∀ c ∈ exhausted, c.isExhausted = true) :
    space.Linked (steps ++ exhausted.map space.abandonStep) choices := by
  induction exhausted generalizing steps with
  | nil => simpa using h
  | cons c exhausted ih =>
    rw [List.forall_mem_cons] at hall
    have hrest := ih (Linked.abandon hspace h hall.1) hall.2
    rwa [List.append_assoc, List.singleton_append] at hrest

lemma SearchSpace.Linked.follows_retryStep (hspace : space.IsLabelled) {r : Resumption P A}
    (h : space.Linked steps (r.choice :: older)) : (space.retryStep r).Follows steps := by
  have hpending := h.pending r.choice List.mem_cons_self
  obtain ⟨choice, hchoice, hcandidates⟩ := hpending.made
  refine .retry (hspace.role_retryStep r) rfl hchoice hcandidates.symm ?_ rfl ?_
  · rw [hpending.retried, hcandidates, List.getElem?_map, List.getElem?_eq_getElem r.untried]
    rfl
  · -- a later choice is not on the stack any more
    intro u other hu hother
    rcases h.settled u other hother with ⟨d, hd, rfl⟩ | hretries
    · rcases List.mem_cons.mp hd with rfl | hd
      · exact absurd hu (Nat.lt_irrefl _)
      · exact absurd hu (Nat.lt_asymm ((List.pairwise_cons.mp h.ordered).1 d hd))
    · exact hretries

lemma SearchSpace.Pending.advance (hspace : space.IsLabelled) {r : Resumption P A}
    (h : space.Pending steps r.choice) :
    space.Pending (steps ++ [space.retryStep r]) r.choice.advance := by
  obtain ⟨choice, hchoice, hcandidates⟩ := h.made
  have hrole := hspace.role_retryStep r
  refine ⟨⟨choice, hchoice.push, hcandidates⟩, ?_, ?_, r.untried⟩
  · change returns .retry _ r.choice.step + 1 = r.choice.cursor + 1
    rw [returns_push_self hrole rfl, h.retried]
  · change returns .abandonment _ r.choice.step = 0
    rw [returns_push_of_not (by simp [hrole]), h.kept]

/-- The youngest choice that has an alternative left is the one that is taken up. -/
lemma SearchSpace.Linked.retry (hspace : space.IsLabelled) {r : Resumption P A}
    (h : space.Linked steps (r.choice :: older)) :
    space.Linked (steps ++ [space.retryStep r]) (r.choice.advance :: older) := by
  have holder := (List.pairwise_cons.mp h.ordered).1
  have hto : ∀ t, (space.retryStep r).backtrackTo = some t → r.choice.step = t :=
    fun t ht => Option.some.inj ht
  refine ⟨h.coherent.push (h.follows_retryStep hspace), ?_, ?_, ?_⟩
  · exact List.pairwise_cons.mpr ⟨holder, h.ordered.of_cons⟩
  · intro d hd
    rcases List.mem_cons.mp hd with rfl | hd
    · exact (h.pending r.choice List.mem_cons_self).advance hspace
    · apply (h.pending d (List.mem_cons_of_mem _ hd)).push
      intro _ heq
      exact Nat.ne_of_gt (holder d hd) (hto _ heq)
  · intro t other hother
    rcases hother.of_push with hold | ⟨-, rfl⟩
    · rcases h.settled t other hold with ⟨d, hd, rfl⟩ | hretries
      · rcases List.mem_cons.mp hd with rfl | hd
        · exact .inl ⟨_, List.mem_cons_self, rfl⟩
        · exact .inl ⟨d, List.mem_cons_of_mem _ hd, rfl⟩
      · by_cases ht : r.choice.step = t
        · exact .inl ⟨_, List.mem_cons_self, ht⟩
        · rw [returns_push_of_not fun hself => ht (hto t hself.2)]
          exact .inr hretries
    · have hrole := hother.role
      simp [hspace.role_retryStep] at hrole

/-- Every move keeps history and stack together. -/
theorem SearchSpace.Move.linked (hspace : space.IsLabelled) (h : space.Move s next)
    (hs : space.Linked s.trace.toList s.choices) :
    space.Linked next.trace.toList next.choices := by
  cases h with
  | @forced action _ h =>
    rw [Trace.toList_push]
    apply hs.push_plain
    rw [hspace.step]
    exact .inl (hspace.forced h)
  | choose h => exact hs.choose hspace
  | @resume _ r exhausted older h hstack hall =>
    rw [hstack] at hs
    rw [Trace.toList_push, Trace.toList_pushAll]
    exact (hs.abandonAll hspace hall).retry hspace

lemma SearchSpace.Reaches.linked (hspace : space.IsLabelled) (h : space.Reaches limit s next)
    (hs : space.Linked s.trace.toList s.choices) :
    space.Linked next.trace.toList next.choices := by
  induction h with
  | refl => exact hs
  | tail _ hmove ih => exact hmove.2.linked hspace ih

/-- How history and stack are left by a search: if it ends for want of alternatives then every
choice has been tried in full. -/
structure SearchSpace.Closed (space : SearchSpace P A) (trace : Trace)
    (choices : ChoiceStack P A) : Prop where
  linked : space.Linked trace.toList choices
  exhausted {last : Step} :
    trace.last? = some last → last.action.role = .exhaustion → choices = []

lemma SearchSpace.Linked.closed (h : space.Linked trace.toList choices)
    (hrole : step.action.role.IsPlain) (hall : step.action.role = .exhaustion → choices = []) :
    space.Closed (trace.push step) choices where
  linked := by
    rw [Trace.toList_push]
    exact h.push_plain hrole
  exhausted := by
    intro last hlast hexhaustion
    rw [Trace.last?_push, Option.some.injEq] at hlast
    exact hall (hlast ▸ hexhaustion)

lemma SearchSpace.Ends.closed (hspace : space.IsLabelled) (h : space.Ends limit s trace)
    (hs : space.Linked s.trace.toList s.choices) : ∃ choices, space.Closed trace choices := by
  have hother : ∀ p action, action.role = .other →
      (space.step p action).action.role.IsPlain ∧
        ((space.step p action).action.role = .exhaustion → s.choices = []) := by
    intro p action haction
    rw [hspace.step, haction]
    exact ⟨.inl rfl, by simp⟩
  cases h with
  | limit =>
    obtain ⟨hrole, hall⟩ := hother s.position (.stepLimit limit) rfl
    exact ⟨_, hs.closed hrole hall⟩
  | goal h =>
    obtain ⟨hrole, hall⟩ := hother s.position .success rfl
    exact ⟨_, hs.closed hrole hall⟩
  | breakdown h =>
    obtain ⟨hrole, hall⟩ := hother s.position _ (hspace.breakdown h)
    exact ⟨_, hs.closed hrole hall⟩
  | deadEnd h hstack =>
    exact ⟨_, hs.closed (hspace.giveUp _ (hspace.deadEnd h)) fun _ => hstack⟩
  | exhausted h hstack hall =>
    -- all choices but the oldest one are abandoned, and that one has been tried in full as well
    rw [← List.dropLast_concat_getLast hstack] at hs
    have hnewer := hs.abandonAll hspace fun c hc => hall c (List.dropLast_subset _ hc)
    have hnone := hnewer.drop (hall _ (List.getLast_mem hstack))
    rw [← Trace.toList_pushAll] at hnone
    exact ⟨[], hnone.closed (hspace.giveUp _ (.inr rfl)) fun _ => rfl⟩

lemma SearchSpace.closed_of_plain (h : ∀ step ∈ trace.toList, step.action.role.IsPlain)
    (hrole : step.action.role.IsPlain) : space.Closed (trace.push step) [] :=
  (linked_of_plain h).closed hrole fun _ => rfl

/-- Every run of a search keeps history and stack together up to its end. -/
theorem SearchSpace.closed_run (hspace : space.IsLabelled)
    (h : ∀ step ∈ trace.toList, step.action.role.IsPlain) (limit : Nat) (p : P) :
    ∃ choices, space.Closed (space.run limit ⟨p, [], trace⟩) choices := by
  obtain ⟨last, hreach, hends⟩ := space.exists_ends limit ⟨p, [], trace⟩
  exact hends.closed hspace (hreach.linked hspace (linked_of_plain h))

end GrammarTrace
