import GrammarTrace.Proofs.Normalization
import GrammarTrace.Proofs.Search.Exhaustion
import GrammarTrace.Proofs.Search.Soundness

/-!
# The search for a reduction to the start symbol

Every form that the search records derives the symbols of the input. A search that gives up has
tried every sequence of the reductions that it makes, and these are all reductions if the grammar
has no empty production.
-/

namespace GrammarTrace

variable {g : Grammar} {form next tokens : Form} {input : String} {limit : Nat} {step : Step}
  {I : Form → Prop} {trace : Trace} {state : SearchState Form Reduction}

/-! ### What is found in a form -/

/-- What a form lets the search do. -/
inductive Grammar.Finds (g : Grammar) (form : Form) : Prospect Form Reduction → Prop where
  | goal (h : form = [g.startSymbol]) : Finds g form (.goal (g.reductionRules.reductions form))
  | choice {first : Reduction} {others : List Reduction} (hne : form ≠ [g.startSymbol])
      (h : g.reductionRules.reductions form = first :: others) :
      Finds g form (.choice first others)
  | deadEnd (hne : form ≠ [g.startSymbol]) (h : g.reductionRules.reductions form = []) :
      Finds g form (.deadEnd .noReductions)

lemma Grammar.prospect_start :
    ∃ alternatives, g.reductionRules.space.prospect [g.startSymbol] = .goal alternatives :=
  ⟨_, if_pos rfl⟩

lemma Grammar.finds_prospect : g.Finds form (g.reductionRules.space.prospect form) := by
  change g.Finds form (g.reductionRules.prospect form)
  rw [ReductionRules.prospect]
  split_ifs with hform
  · exact .goal hform
  · split
    · next h => exact .deadEnd hform h
    · next h => exact .choice hform h

lemma Grammar.finds_of_eq {prospect : Prospect Form Reduction}
    (h : g.reductionRules.space.prospect form = prospect) : g.Finds form prospect :=
  h ▸ finds_prospect

lemma Grammar.reducesInSearch_of_choice {first r : Reduction} {others : List Reduction}
    (h : g.reductionRules.space.prospect form = .choice first others) (hr : r ∈ first :: others) :
    g.ReducesInSearch form (Reduction.apply form r) := by
  cases finds_of_eq h with
  | choice hne hfound =>
    rw [← hfound] at hr
    exact reducesInSearch_iff.mpr ⟨r, hr, rfl⟩

lemma Grammar.preserves_of_reducesInSearch
    (hI : ∀ ⦃form next : Form⦄, I form → g.ReducesInSearch form next → I next) :
    g.reductionRules.space.Preserves I where
  forced := by
    intro form action next _ h
    cases finds_of_eq h
  choice := by
    intro form first others r hform h hr
    exact hI hform (reducesInSearch_of_choice h hr)

lemma Grammar.marksGoals_reductions : g.reductionRules.space.MarksGoals where
  step _ _ := rfl
  giveUp form reason := by
    change (g.reductionRules.giveUp form reason).success ≠ some true
    rw [ReductionRules.giveUp]
    split_ifs <;> simp

/-! ### The search as a whole -/

/-- How a search goes whose input has been scanned: it is stopped while terminals are replaced by
their classes, or it is run from the form that is left. -/
inductive Grammar.SearchesFrom (g : Grammar) (I : Form → Prop) (limit : Nat) (tokens : Form) :
    Trace → Prop where
  | stopped {form : Form} {steps : List Step} (hform : I form)
      (hsteps : ∀ step ∈ steps, step.Normalizes I) :
      SearchesFrom g I limit tokens
        (((Trace.empty.push { action := .start, form := tokens }).pushAll steps).push
          { action := .stepLimit limit, form })
  | searched {form : Form} {steps : List Step} {trace : Trace} (hform : I form)
      (hsteps : ∀ step ∈ steps, step.Normalizes I)
      (htrace : trace = (Trace.empty.push { action := .start, form := tokens }).pushAll steps)
      (h : g.normalize limit tokens = .running ⟨form, [], trace⟩) :
      SearchesFrom g I limit tokens (g.reductionRules.space.run limit ⟨form, [], trace⟩)

lemma Grammar.searchesFrom_searchReduction (limit : Nat) (htokens : scan .char input = .ok tokens)
    (hclasses : ClassesPreserve g.lexicalClasses I) (hI : I tokens) :
    g.SearchesFrom I limit tokens (g.searchReduction input limit) := by
  have hnormalized : Normalized I limit _ (g.normalize limit tokens) :=
    normalized_normalize hclasses hI
  rw [searchReduction, htokens]
  dsimp only
  cases hprogress : g.normalize limit tokens with
  | ended trace =>
    rw [hprogress] at hnormalized
    cases hnormalized with
    | ended hform hsteps => exact .stopped hform hsteps
  | running state =>
    rw [hprogress] at hnormalized
    cases hnormalized with
    | running hform hsteps => exact .searched hform hsteps rfl hprogress

/-- A search whose input has been scanned replaces terminals by their classes, then makes its moves,
and ends. A search that is stopped before its first move ends at the limit like any other. -/
theorem Grammar.exists_ends_searchReduction (g : Grammar) (limit : Nat)
    (htokens : scan .char input = .ok tokens) :
    ∃ state last, ReplacesTo g.lexicalClasses limit
        ⟨tokens, [], Trace.empty.push { action := .start, form := tokens }⟩ state ∧
      g.reductionRules.space.Reaches limit state last ∧
      g.reductionRules.space.Ends limit last (g.searchReduction input limit) := by
  obtain ⟨state, hreplaces, hlast⟩ := g.exists_replacesLast limit tokens
  rw [searchReduction, htokens]
  dsimp only
  generalize g.normalize limit tokens = progress at hlast
  cases hlast with
  | done =>
    obtain ⟨last, hreach, hends⟩ := g.reductionRules.space.exists_ends limit state
    exact ⟨state, last, hreplaces, hreach, hends⟩
  | stopped hlimit hmem =>
    have hgoal : (g.reductionRules.space.prospect state.position).isGoal = false := by
      have hfinds : g.Finds state.position _ := finds_prospect
      generalize g.reductionRules.space.prospect state.position = prospect at hfinds
      cases hfinds with
      | goal h =>
        -- a terminal is left, so the form is not the start symbol
        simp [h, startSymbol] at hmem
      | choice | deadEnd => rfl
    exact ⟨state, state, hreplaces, .refl, .limit hlimit hgoal⟩

lemma Step.normalizes_of_mem {first : Step} {steps : List Step}
    (hsteps : ∀ step ∈ steps, step.Normalizes I)
    (hstep : step ∈ ((Trace.empty.push first).pushAll steps).toList) :
    step = first ∨ step.Normalizes I := by
  rw [Trace.mem_pushAll, Trace.mem_push] at hstep
  rcases hstep with (hempty | rfl) | hstep
  · simp at hempty
  · exact .inl rfl
  · exact .inr (hsteps step hstep)

/-- The steps of a search: the first one, the replacements of terminals by their classes, and what
is recorded from then on. -/
theorem Grammar.mem_searchReduction (htokens : scan .char input = .ok tokens)
    (hclasses : ClassesPreserve g.lexicalClasses I)
    (hreduces : ∀ ⦃form next : Form⦄, I form → g.ReducesInSearch form next → I next)
    (hI : I tokens) (hstep : step ∈ (g.searchReduction input limit).toList) :
    (step = { action := .start, form := tokens } ∨ step.Normalizes I) ∨
      g.reductionRules.space.Records I limit step := by
  have hsearches := searchesFrom_searchReduction limit htokens hclasses hI
  generalize g.searchReduction input limit = trace at hsearches hstep
  cases hsearches with
  | stopped hform hsteps =>
    rcases Trace.mem_push.mp hstep with hstep | rfl
    · exact .inl (Step.normalizes_of_mem hsteps hstep)
    · exact .inr (.limit hform)
  | searched hform hsteps htrace =>
    rcases SearchSpace.mem_run (preserves_of_reducesInSearch hreduces)
      (SearchSpace.sound_of_start hform) hstep with hstep | hrecords
    · rw [htrace] at hstep
      exact .inl (Step.normalizes_of_mem hsteps hstep)
    · exact .inr hrecords

/-! ### Soundness -/

/-- Whether a form derives some tokens, with its terminals as scanning makes them. -/
def Grammar.DerivesTokens (g : Grammar) (tokens form : Form) : Prop :=
  g.Derives .char form tokens ∧
    ∀ text, .terminal text ∈ form → (Symbol.terminal text).IsToken .char

lemma Grammar.derivesTokens_of_scan (htokens : scan .char input = .ok tokens) :
    g.DerivesTokens tokens tokens :=
  ⟨.refl, fun _ hmem => isToken_of_scan htokens hmem⟩

/-- A terminal that stands beside a nonterminal also stands beside whatever the nonterminal has been
put in the place of. -/
lemma Form.terminal_mem_of_mem {before after : Form} {text name : String} (replaced : Form)
    (h : .terminal text ∈ before ++ .nonterminal name :: after) :
    .terminal text ∈ before ++ replaced ++ after := by
  simp only [List.mem_append, List.mem_cons, reduceCtorEq, false_or] at h ⊢
  rcases h with h | h
  · exact .inl (.inl h)
  · exact .inr h

lemma Grammar.classesPreserve_derivesTokens :
    ClassesPreserve g.lexicalClasses (g.DerivesTokens tokens) := by
  rintro before after symbol name ⟨hderives, hterminals⟩ hclass
  obtain ⟨text, -, rfl, -⟩ := exists_of_classOf hclass
  have htoken := hterminals text (by simp)
  refine ⟨.head (rewrites_of_classOf htoken hclass) hderives, ?_⟩
  intro other hmem
  refine hterminals other ?_
  have hreplaced := Form.terminal_mem_of_mem [.terminal text] hmem
  rwa [List.append_assoc, List.singleton_append] at hreplaced

lemma Grammar.ReducesInSearch.derivesTokens (h : g.ReducesInSearch form next)
    (hform : g.DerivesTokens tokens form) : g.DerivesTokens tokens next := by
  refine ⟨.head h.reduces.rewrites hform.1, ?_⟩
  intro text hmem
  refine hform.2 text ?_
  cases h with
  | occurrence before after hp hempty => exact Form.terminal_mem_of_mem _ hmem
  | empty hp hempty => simp at hmem

lemma Grammar.form_giveUp {reason : Action} :
    (g.reductionRules.giveUp form reason).form = form ∧
      (g.reductionRules.giveUp form reason).remaining = none := by
  rw [ReductionRules.giveUp]
  split_ifs <;> exact ⟨rfl, rfl⟩

lemma isTerminal_of_scan (htokens : scan .char input = .ok tokens) (hplain : '<' ∉ input.toList) :
    tokens.IsTerminal := by
  by_cases hempty : input = ""
  · rw [hempty, scan, String.toList_empty, scanAt] at htokens
    obtain rfl := Except.ok.inj htokens
    exact Form.isTerminal_nil
  · rw [scan_of_plain hempty hplain] at htokens
    obtain rfl := Except.ok.inj htokens
    exact Form.isTerminal_map_singleton _

/-- Every form that is recorded derives the symbols of the input, character by character. If the
input is accepted then so does the start symbol, which generates the input if it is plain text. -/
theorem Grammar.searchReduction_derives (g : Grammar) (input : String) (limit : Nat)
    {tokens : Form} (htokens : scan .char input = .ok tokens) :
    (∀ step ∈ (g.searchReduction input limit).toList, g.Derives .char step.form tokens) ∧
    ((g.searchReduction input limit).verdict = .accepted →
      g.Derives .char [g.startSymbol] tokens ∧ ('<' ∉ input.toList → g.Generates input)) := by
  have hstart := g.derivesTokens_of_scan htokens
  have hreduces : ∀ ⦃form next : Form⦄, g.DerivesTokens tokens form → g.ReducesInSearch form next →
      g.DerivesTokens tokens next := fun _ _ hform h => h.derivesTokens hform
  constructor
  · intro step hstep
    rcases mem_searchReduction htokens classesPreserve_derivesTokens hreduces hstart hstep with
      (rfl | hnormalizes) | hrecords
    · exact hstart.1
    · exact hnormalizes.1.1
    · obtain ⟨form, hform, action, hshown, -⟩ :=
        hrecords.exists_shows (preserves_of_reducesInSearch hreduces)
          fun _ reason => ⟨reason, form_giveUp⟩
      rw [hshown]
      exact hform.1
  · intro haccepted
    have hsearches := searchesFrom_searchReduction limit htokens classesPreserve_derivesTokens
      hstart
    generalize g.searchReduction input limit = trace at hsearches haccepted
    cases hsearches with
    | stopped =>
      rw [Trace.verdict_push] at haccepted
      cases haccepted
    | searched hform =>
      obtain ⟨form, alternatives, hform, hgoal⟩ :=
        SearchSpace.exists_goal_of_accepted marksGoals_reductions
          (preserves_of_reducesInSearch hreduces) (SearchSpace.sound_of_start hform) haccepted
      cases finds_of_eq hgoal with
      | goal heq =>
        subst heq
        refine ⟨hform.1, fun hplain => ?_⟩
        rw [← text_of_scan htokens]
        exact generates_of_derives_char hform.1 (isTerminal_of_scan htokens hplain)

theorem Grammar.sums_generates :
    scan .char "1+0" = .ok [.terminal "1", .terminal "+", .terminal "0"] ∧
      Grammar.sums.Generates "1+0" := by
  have htokens : scan .char "1+0" = .ok [.terminal "1", .terminal "+", .terminal "0"] :=
    scan_of_plain (by decide) (by decide)
  have hderives := (Grammar.sums.searchReduction_derives "1+0" 100 htokens).2 (by decide +kernel)
  exact ⟨htokens, hderives.2 (by decide)⟩

/-! ### Exhaustion -/

lemma Grammar.ReducesInSearch.solvable (h : g.ReducesInSearch form next)
    (hnext : g.reductionRules.space.Solvable next) : g.reductionRules.space.Solvable form := by
  obtain ⟨r, hr, rfl⟩ := reducesInSearch_iff.mp h
  have hfinds : g.Finds form (g.reductionRules.space.prospect form) := finds_prospect
  generalize hprospect : g.reductionRules.space.prospect form = prospect at hfinds
  cases hfinds with
  | goal => exact SearchSpace.solvable_of_goal hprospect
  | choice hne hfound =>
    rw [hfound] at hr
    exact SearchSpace.solvable_of_choice hprospect hr hnext
  | deadEnd hne hfound => simp [hfound] at hr

/-- Whatever sequence of its reductions leads to the start symbol, the search has a way to it. -/
lemma Grammar.solvable_of_reduces
    (h : Relation.ReflTransGen g.ReducesInSearch form [g.startSymbol]) :
    g.reductionRules.space.Solvable form := by
  induction h using Relation.ReflTransGen.head_induction_on with
  | refl =>
    obtain ⟨alternatives, hgoal⟩ := g.prospect_start
    exact SearchSpace.solvable_of_goal hgoal
  | head hstep _ ih => exact hstep.solvable ih

/-- A run whose last step is a failure or leaves the question open has given up, and has come past
every sequence of its reductions. -/
lemma Grammar.exists_giveUp_of_run
    (hlast : (g.reductionRules.space.run limit state).last? = some step)
    (hstep : step.success = some false ∨ step.action = .inconclusive) :
    ¬Relation.ReflTransGen g.ReducesInSearch state.position [g.startSymbol] ∧
      ∃ form reason, (reason = .noReductions ∨ reason = .alternativesExhausted) ∧
        step = g.reductionRules.giveUp form reason := by
  obtain ⟨last, hreach, hends⟩ := g.reductionRules.space.exists_ends limit state
  generalize g.reductionRules.space.run limit state = trace at hlast hends
  cases hends with
  | limit | goal =>
    obtain rfl := Trace.eq_of_last hlast
    rcases hstep with hstep | hstep <;> cases hstep
  | breakdown h => cases finds_of_eq h
  | deadEnd h hstack =>
    have hunsolvable := hreach.not_solvable h (by simp [hstack])
    refine ⟨mt solvable_of_reduces hunsolvable, last.position, _, .inl ?_,
      (Trace.eq_of_last hlast).symm⟩
    generalize last.position = form at h
    cases finds_of_eq h
    rfl
  | exhausted h hstack hall =>
    have hunsolvable := hreach.not_solvable h hall
    exact ⟨mt solvable_of_reduces hunsolvable, last.position, _, .inr rfl,
      (Trace.eq_of_last hlast).symm⟩

lemma Grammar.exists_giveUp (htokens : scan .char input = .ok tokens)
    (hlast : (g.searchReduction input limit).last? = some step)
    (hstep : step.success = some false ∨ step.action = .inconclusive) :
    (∃ state, g.normalize limit tokens = .running state ∧
      ¬Relation.ReflTransGen g.ReducesInSearch state.position [g.startSymbol]) ∧
    ∃ form reason, (reason = .noReductions ∨ reason = .alternativesExhausted) ∧
      step = g.reductionRules.giveUp form reason := by
  have hsearches := searchesFrom_searchReduction limit htokens g.classesPreserve_true trivial
  generalize g.searchReduction input limit = trace at hsearches hlast
  cases hsearches with
  | stopped =>
    obtain rfl := Trace.eq_of_last hlast
    rcases hstep with hstep | hstep <;> cases hstep
  | searched _ _ _ h =>
    obtain ⟨hreduces, hgiveUp⟩ := exists_giveUp_of_run hlast hstep
    exact ⟨⟨_, h, hreduces⟩, hgiveUp⟩

lemma Grammar.action_giveUp (form : Form) (reason : Action) :
    (g.reductionRules.giveUp form reason).action = reason ∨
      (g.reductionRules.giveUp form reason).action = .inconclusive := by
  rw [ReductionRules.giveUp]
  split_ifs
  · exact .inl rfl
  · exact .inr rfl

lemma Grammar.not_hasEmptyProduction_of_giveUp {reason : Action}
    (h : (g.reductionRules.giveUp form reason).success = some false) : ¬g.HasEmptyProduction := by
  rw [ReductionRules.giveUp] at h
  split_ifs at h with hempties
  exact isEmpty_empties.mp hempties

lemma Grammar.hasEmptyProduction_of_giveUp {reason : Action}
    (hreason : reason = .noReductions ∨ reason = .alternativesExhausted)
    (h : (g.reductionRules.giveUp form reason).action = .inconclusive) : g.HasEmptyProduction := by
  rw [ReductionRules.giveUp] at h
  split_ifs at h with hempties
  · rcases hreason with rfl | rfl <;> cases h
  · rwa [isEmpty_empties, not_not] at hempties

lemma Grammar.reflTransGen_inSearch (hempty : ¬g.HasEmptyProduction)
    (h : Relation.ReflTransGen g.Reduces form next) :
    Relation.ReflTransGen g.ReducesInSearch form next :=
  Relation.ReflTransGen.mono (fun _ _ hstep => Reduces.inSearch hempty hstep) _ _ h

/-- The steps of a search for a reduction, told apart by their actions. -/
inductive Grammar.ReductionKind (g : Grammar) (limit : Nat) (step : Step) : Prop where
  | start (h : step.action = .start)
  | normalize {text name : String} (h : step.action = .normalize text name)
  | reduce {name production : String} (h : step.action = .reduce name production)
  | retry {name production : String} (h : step.action = .retry name production)
  | abandonment {form : String} (h : step.action = .abandonReduction form)
  | limit (h : step.action = .stepLimit limit)
  | goal (h : step.action = .success) (hmark : step.success = some true)
  | noReductions (h : step.action = .noReductions)
  | exhausted (h : step.action = .alternativesExhausted)
  | inconclusive (h : step.action = .inconclusive) (hempty : g.HasEmptyProduction)

lemma Grammar.reductionKind_giveUp {reason : Action}
    (hreason : reason = .noReductions ∨ reason = .alternativesExhausted) :
    g.ReductionKind limit (g.reductionRules.giveUp form reason) := by
  rcases g.action_giveUp form reason with haction | haction
  · rcases hreason with rfl | rfl
    · exact .noReductions haction
    · exact .exhausted haction
  · exact .inconclusive haction (hasEmptyProduction_of_giveUp hreason haction)

/-- A search whose input has been scanned has no other steps. -/
lemma Grammar.reductionKind_of_mem (htokens : scan .char input = .ok tokens)
    (hstep : step ∈ (g.searchReduction input limit).toList) : g.ReductionKind limit step := by
  rcases mem_searchReduction htokens g.classesPreserve_true (fun _ _ _ _ => trivial) trivial
    hstep with (rfl | ⟨-, text, name, hnormalize⟩) | hrecords
  · exact .start rfl
  · exact .normalize hnormalize
  · cases hrecords with
    | forced _ h => cases finds_of_eq h
    | breakdown _ h => cases finds_of_eq h
    | choice => exact .reduce rfl
    | retry => exact .retry rfl
    | abandon => exact .abandonment rfl
    | limit => exact .limit rfl
    | goal => exact .goal rfl rfl
    | deadEnd _ h =>
      cases finds_of_eq h
      exact reductionKind_giveUp (.inl rfl)
    | exhausted => exact reductionKind_giveUp (.inr rfl)

/-- Only a grammar with empty productions leaves the question open. -/
lemma Grammar.hasEmptyProduction_of_inconclusive (htokens : scan .char input = .ok tokens)
    (hstep : step ∈ (g.searchReduction input limit).toList)
    (haction : step.action = .inconclusive) : g.HasEmptyProduction := by
  cases reductionKind_of_mem htokens hstep with
  | inconclusive _ hempty => exact hempty
  | start h | normalize h | reduce h | retry h | abandonment h | limit h | goal h | noReductions h
  | exhausted h => cases haction.symm.trans h

/-- A search of an input that can be scanned gives up only when no sequence of its reductions leads
from the form without terminals of classes to the start symbol. It rejects the input if the grammar
has no empty production, so that its reductions are all there are, and otherwise leaves the question
open. -/
theorem Grammar.searchReduction_exhaustive (g : Grammar) (input : String) (limit : Nat)
    {tokens : Form} (htokens : scan .char input = .ok tokens) :
    ((g.searchReduction input limit).verdict = .rejected → ¬g.HasEmptyProduction ∧
      ∃ state, g.normalize limit tokens = .running state ∧
        ¬Relation.ReflTransGen g.Reduces state.position [g.startSymbol]) ∧
    ((∃ step, (g.searchReduction input limit).last? = some step ∧ step.action = .inconclusive) →
      g.HasEmptyProduction ∧ ∃ state, g.normalize limit tokens = .running state ∧
        ¬Relation.ReflTransGen g.ReducesInSearch state.position [g.startSymbol]) ∧
    (g.HasEmptyProduction → (g.searchReduction input limit).verdict ≠ .rejected) ∧
    (¬g.HasEmptyProduction →
      ∀ step ∈ (g.searchReduction input limit).toList, step.action ≠ .inconclusive) := by
  have hrejected : (g.searchReduction input limit).verdict = .rejected → ¬g.HasEmptyProduction ∧
      ∃ state, g.normalize limit tokens = .running state ∧
        ¬Relation.ReflTransGen g.Reduces state.position [g.startSymbol] := by
    intro hverdict
    obtain ⟨step, hlast, hfailure⟩ := Trace.exists_last_of_rejected hverdict
    obtain ⟨⟨state, hstate, hreduces⟩, form, reason, -, rfl⟩ :=
      exists_giveUp htokens hlast (.inl hfailure)
    have hempty := not_hasEmptyProduction_of_giveUp hfailure
    exact ⟨hempty, state, hstate, mt (reflTransGen_inSearch hempty) hreduces⟩
  refine ⟨hrejected, ?_, fun hempty hverdict => (hrejected hverdict).1 hempty, ?_⟩
  · rintro ⟨step, hlast, haction⟩
    obtain ⟨hstate, form, reason, hreason, rfl⟩ := exists_giveUp htokens hlast (.inr haction)
    exact ⟨hasEmptyProduction_of_giveUp hreason haction, hstate⟩
  · intro hempty step hstep haction
    exact hempty (hasEmptyProduction_of_inconclusive htokens hstep haction)

theorem Grammar.exhausted_sums_and_pairs :
    (scan .char "1+" = .ok [.terminal "1", .terminal "+"] ∧
      ∃ state, Grammar.sums.normalize 100 [.terminal "1", .terminal "+"] = .running state ∧
        ¬Relation.ReflTransGen Grammar.sums.Reduces state.position [Grammar.sums.startSymbol]) ∧
    (scan .char "aab" = .ok [.terminal "a", .terminal "a", .terminal "b"] ∧
      ∃ state, Grammar.pairs.normalize 100 [.terminal "a", .terminal "a", .terminal "b"] =
          .running state ∧
        ¬Relation.ReflTransGen Grammar.pairs.ReducesInSearch state.position
          [Grammar.pairs.startSymbol]) := by
  have hsum : scan .char "1+" = .ok [.terminal "1", .terminal "+"] :=
    scan_of_plain (by decide) (by decide)
  have hpair : scan .char "aab" = .ok [.terminal "a", .terminal "a", .terminal "b"] :=
    scan_of_plain (by decide) (by decide)
  have hlast : (Grammar.pairs.searchReduction "aab" 100).last?.map Step.action =
      some .inconclusive := by decide +kernel
  constructor
  · have hsums := (Grammar.sums.searchReduction_exhaustive "1+" 100 hsum).1 (by decide +kernel)
    exact ⟨hsum, hsums.2⟩
  · have hpairs := (Grammar.pairs.searchReduction_exhaustive "aab" 100 hpair).2.1
      (Option.map_eq_some_iff.mp hlast)
    exact ⟨hpair, hpairs.2⟩

end GrammarTrace
