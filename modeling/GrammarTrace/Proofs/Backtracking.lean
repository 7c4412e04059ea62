import GrammarTrace.Proofs.DerivationSearch
import GrammarTrace.Proofs.ReductionSearch
import GrammarTrace.Proofs.Search.Links
import GrammarTrace.Strategy

/-!
# The discipline of going back

A run goes back to its choices in the order of a stack: always to the youngest one that has an
alternative left, whose alternatives are taken in order and in full before the choice is left for
good. `Trace.Backtracks` says so of a trace, and `Strategy.run_backtracks` of every run.
-/

namespace GrammarTrace

/-- What a strategy does when it makes a choice. -/
inductive Strategy.Chooses : Strategy → Action → Prop where
  | expand (nonterminal production : String) : Chooses .topDown (.expand nonterminal production)
  | reduce (nonterminal production : String) : Chooses .bottomUp (.reduce nonterminal production)

/-- The number of steps before the one numbered `id` that retry the choice made by the step
numbered `t`. -/
def Trace.retriesBefore (trace : Trace) (id t : Nat) : Nat :=
  returns .retry (trace.toList.take id) t

/-- Whether the step numbered `t` made a choice that still has an untried alternative when the step
numbered `id` is recorded. -/
def Trace.IsOpenAt (trace : Trace) (id t : Nat) : Prop :=
  ∃ choice, t < id ∧ BranchesAt trace.toList t choice ∧
    trace.retriesBefore id t < choice.candidates.length - 1

/-- The discipline of going back to choices. -/
structure Trace.Backtracks (trace : Trace) (strategy : Strategy) : Prop where
  choice {id : Nat} {step : Step} : trace.get? id = some step → step.action.role = .choice →
    strategy.Chooses step.action ∧
      ∃ taken, step.candidates[0]? = some taken ∧ step.selected = some taken
  target {id : Nat} {step : Step} : trace.get? id = some step →
    step.action.role = .retry ∨ step.action.role = .abandonment →
    ∃ t choice, step.backtrackTo = some t ∧ t < id ∧ BranchesAt trace.toList t choice
  /-- One more alternative is taken at each retry. -/
  retry {id t : Nat} {step choice : Step} : trace.get? id = some step →
    step.action.role = .retry → step.backtrackTo = some t → trace.get? t = some choice →
    step.candidates = choice.candidates ∧ ∃ taken,
      choice.candidates[trace.retriesBefore id t + 1]? = some taken ∧ step.selected = some taken
  /-- A retry goes back to the youngest choice that is open. -/
  latest {id t : Nat} {step : Step} : trace.get? id = some step → step.action.role = .retry →
    step.backtrackTo = some t → trace.IsOpenAt id t ∧ ∀ u, t < u → ¬trace.IsOpenAt id u
  once (t : Nat) : returns .abandonment trace.toList t ≤ 1
  /-- A choice is left for good only when all of its alternatives have been taken. -/
  abandonment {id t : Nat} {step choice : Step} : trace.get? id = some step →
    step.action.role = .abandonment → step.backtrackTo = some t → trace.get? t = some choice →
    trace.retriesBefore id t = choice.candidates.length - 1
  /-- A run gives up only when all alternatives of all choices have been taken. -/
  exhausted {last : Step} : trace.last? = some last → last.action.role = .exhaustion →
    ∀ t choice, BranchesAt trace.toList t choice →
      returns .retry trace.toList t = choice.candidates.length - 1

variable {P A : Type} {space : SearchSpace P A} {choices : ChoiceStack P A} {trace : Trace}
  {strategy : Strategy} {step choice : Step} {id t : Nat} {I : P → Prop} {limit : Nat} {g : Grammar}
  {input : String} {steps : List Step}

/-! ### From histories to traces -/

lemma Trace.get?_eq : trace.get? id = trace.toList[id]? := by
  simp [Trace.get?, Trace.toList]

lemma Coherent.follows (h : Coherent trace.toList) (hget : trace.get? id = some step) :
    step.Follows (trace.toList.take id) :=
  h id step (Trace.get?_eq ▸ hget)

lemma BranchesAt.of_take (h : BranchesAt (trace.toList.take id) t choice) :
    t < id ∧ BranchesAt trace.toList t choice ∧ trace.get? t = some choice := by
  obtain ⟨hlt, hchoice⟩ := branchesAt_take.mp h
  exact ⟨hlt, hchoice, Trace.get?_eq.trans hchoice.get⟩

/-- The history of a search obeys the discipline, if its choices are those of the strategy. -/
theorem SearchSpace.Closed.backtracks (h : space.Closed trace choices)
    (hchooses : ∀ step ∈ trace.toList, step.action.role = .choice →
      strategy.Chooses step.action) : trace.Backtracks strategy where
  choice := by
    intro id step hget hrole
    have hmem : step ∈ trace.toList := List.mem_of_getElem? (Trace.get?_eq ▸ hget)
    exact ⟨hchooses step hmem hrole, (h.linked.coherent.follows hget).of_choice hrole⟩
  target := by
    intro id step hget hrole
    obtain ⟨t, choice, hto, hchoice⟩ := (h.linked.coherent.follows hget).exists_target hrole
    obtain ⟨hlt, hbranches, -⟩ := hchoice.of_take
    exact ⟨t, choice, hto, hlt, hbranches⟩
  retry := by
    intro id t step choice hget hrole hto hchoice
    obtain ⟨made, taken, hmade, hcandidates, htaken, hselected, -⟩ :=
      (h.linked.coherent.follows hget).of_retry hrole hto
    obtain rfl := Option.some.inj (hmade.of_take.2.2.symm.trans hchoice)
    exact ⟨hcandidates, taken, htaken, hselected⟩
  latest := by
    intro id t step hget hrole hto
    obtain ⟨choice, taken, hchoice, -, htaken, -, hlatest⟩ :=
      (h.linked.coherent.follows hget).of_retry hrole hto
    obtain ⟨hlt, hbranches, -⟩ := hchoice.of_take
    have hopen : trace.retriesBefore id t + 1 < choice.candidates.length :=
      (List.getElem?_eq_some_iff.mp htaken).1
    refine ⟨⟨choice, hlt, hbranches, Nat.lt_sub_of_add_lt hopen⟩, ?_⟩
    -- a younger choice has no alternative left
    rintro u hu ⟨other, hlt, hother, hretries⟩
    have hfull : trace.retriesBefore id u + 1 = other.candidates.length :=
      hlatest u other hu (branchesAt_take.mpr ⟨hlt, hother⟩)
    omega
  once := h.linked.coherent.returns_abandonment_le
  abandonment := by
    intro id t step choice hget hrole hto hchoice
    obtain ⟨made, hmade, hretries, -⟩ :=
      (h.linked.coherent.follows hget).of_abandonment hrole hto
    obtain rfl := Option.some.inj (hmade.of_take.2.2.symm.trans hchoice)
    exact Nat.eq_sub_of_add_eq hretries
  exhausted := by
    intro last hlast hrole t choice hchoice
    rcases h.linked.settled t choice hchoice with ⟨c, hc, -⟩ | hretries
    · rw [h.exhausted hlast hrole] at hc
      cases hc
    · exact Nat.eq_sub_of_add_eq hretries

/-! ### Choices -/

/-- The only steps of a search that make a choice are those that take its first alternative. -/
lemma SearchSpace.Records.exists_chosen (hspace : space.IsLabelled)
    (h : space.Records I limit step) (hrole : step.action.role = .choice) :
    ∃ taken, step.action = space.chosen taken := by
  cases h with
  | choice _ _ => exact ⟨_, hspace.step ..⟩
  | forced _ h => simp [hspace.step, hspace.forced h] at hrole
  | retry => simp [hspace.role_retryStep] at hrole
  | abandon => simp [hspace.role_abandonStep] at hrole
  | limit => simp [hspace.step, Action.role] at hrole
  | goal => simp [goalStep, hspace.step, Action.role] at hrole
  | breakdown _ h => simp [hspace.step, hspace.breakdown h] at hrole
  | deadEnd _ h => exact absurd hrole (hspace.giveUp _ (hspace.deadEnd h)).ne_choice
  | exhausted => exact absurd hrole (hspace.giveUp _ (.inr rfl)).ne_choice

/-! ### Derivations -/

lemma Derivation.role_refusal (expected : String) (unread : List Char) :
    (refusal expected unread).role = .other := by
  cases unread <;> rfl

lemma Grammar.isLabelled_derivations : g.derivations.IsLabelled where
  step _ _ := rfl
  chosen _ := rfl
  abandoned _ := rfl
  forced h := by
    cases Derivation.finds_of_eq h
    rfl
  breakdown h := by
    cases Derivation.finds_of_eq h
    rfl
  deadEnd h := by
    cases Derivation.finds_of_eq h with
    | leftover => exact .inl rfl
    | barren => exact .inr rfl
    | refusal => exact .inl (Derivation.role_refusal ..)
  giveUp _ hreason := hreason

theorem Grammar.searchDerivation_backtracks (g : Grammar) (input : String) (limit : Nat) :
    (g.searchDerivation input limit).Backtracks .topDown := by
  have hplain : ∀ step ∈ Trace.empty.toList, step.action.role.IsPlain := List.forall_mem_nil _
  obtain ⟨choices, hclosed⟩ :=
    SearchSpace.closed_run g.isLabelled_derivations hplain limit (g.derivationOf input)
  refine hclosed.backtracks ?_
  intro step hstep hrole
  rcases SearchSpace.mem_run SearchSpace.preserves_true (SearchSpace.sound_of_start trivial) hstep with
    hempty | hrecords
  · cases hempty
  · obtain ⟨taken, htaken⟩ := hrecords.exists_chosen g.isLabelled_derivations hrole
    rw [htaken]
    exact .expand ..

/-! ### Reductions -/

lemma Grammar.isLabelled_reductions : g.reductionRules.space.IsLabelled where
  step _ _ := rfl
  chosen _ := rfl
  abandoned _ := rfl
  forced h := by cases finds_of_eq h
  breakdown h := by cases finds_of_eq h
  deadEnd h := by
    cases finds_of_eq h
    exact .inr rfl
  giveUp form hreason := by
    change (g.reductionRules.giveUp form _).action.role.IsPlain
    rw [ReductionRules.giveUp]
    split_ifs
    · exact hreason
    · exact .inr rfl

lemma Step.Normalizes.isPlain {I : Form → Prop} (h : step.Normalizes I) :
    step.action.role.IsPlain := by
  obtain ⟨-, text, name, haction⟩ := h
  rw [haction]
  exact .inl rfl

lemma Step.isPlain_of_normalizes {I : Form → Prop} {tokens : Form}
    (hsteps : ∀ step ∈ steps, step.Normalizes I) : ∀ step ∈
      ((Trace.empty.push { action := .start, form := tokens }).pushAll steps).toList,
      step.action.role.IsPlain := by
  intro step hstep
  rcases Step.normalizes_of_mem hsteps hstep with rfl | hnormalizes
  · exact .inl rfl
  · exact hnormalizes.isPlain

lemma Grammar.exists_closed_searchReduction (g : Grammar) (input : String) (limit : Nat) :
    ∃ choices, g.reductionRules.space.Closed (g.searchReduction input limit) choices := by
  cases htokens : scan .char input with
  | error e =>
    rw [searchReduction, htokens]
    exact ⟨[], SearchSpace.closed_of_plain (List.forall_mem_nil _) (.inl rfl)⟩
  | ok tokens =>
    have hsearches := searchesFrom_searchReduction limit htokens g.classesPreserve_true trivial
    generalize g.searchReduction input limit = trace at hsearches
    cases hsearches with
    | stopped _ hsteps =>
      exact ⟨[], SearchSpace.closed_of_plain (Step.isPlain_of_normalizes hsteps) (.inl rfl)⟩
    | searched _ hsteps htrace =>
      subst htrace
      exact SearchSpace.closed_run g.isLabelled_reductions (Step.isPlain_of_normalizes hsteps) ..

theorem Grammar.searchReduction_backtracks (g : Grammar) (input : String) (limit : Nat) :
    (g.searchReduction input limit).Backtracks .bottomUp := by
  obtain ⟨choices, hclosed⟩ := g.exists_closed_searchReduction input limit
  refine hclosed.backtracks ?_
  intro step hstep hrole
  cases htokens : scan .char input with
  | error e =>
    rw [searchReduction, htokens, Trace.mem_push] at hstep
    rcases hstep with hempty | rfl
    · cases hempty
    · cases hrole
  | ok tokens =>
    rcases mem_searchReduction htokens g.classesPreserve_true (fun _ _ _ _ => trivial) trivial
      hstep with (rfl | hnormalizes) | hrecords
    · cases hrole
    · exact absurd hrole hnormalizes.isPlain.ne_choice
    · obtain ⟨taken, htaken⟩ := hrecords.exists_chosen g.isLabelled_reductions hrole
      rw [htaken]
      exact .reduce ..

/-- Every run obeys the discipline of going back to choices. -/
theorem Strategy.run_backtracks (strategy : Strategy) (g : Grammar) (input : String)
    (limit : Nat) : (strategy.run g input limit).Backtracks strategy := by
  cases strategy with
  | topDown => exact g.searchDerivation_backtracks input limit
  | bottomUp => exact g.searchReduction_backtracks input limit

/-- The innermost of three choices is retried and left for good before the others. -/
example : (Strategy.topDown.run Grammar.pairs "aab" 100).toList.map Step.backtrackTo =
    [none, none, none, none, none, some 4, none, some 4, some 2, some 2, some 0, none] := by
  decide +kernel

end GrammarTrace
