import Mathlib.Logic.Hydra
import GrammarTrace.Proofs.Agreement
import GrammarTrace.Proofs.Limit

/-!
# Grammars without unit cycles

A reduction makes a form shorter or puts a nonterminal in the place of a single symbol. The latter
goes on forever only if nonterminals derive each other in a circle. In a grammar without such a
circle every search for a reduction with a limit that is large enough comes to its end, and without
empty productions it says whether the start symbol can be reached
(`Grammar.searchReduction_answers`).
-/

namespace GrammarTrace

/-- Whether a nonterminal has an alternative whose only symbol is another one. -/
def Grammar.UnitRule (g : Grammar) (name only : String) : Prop :=
  ∃ p, g.HasProduction name p ∧ p.runs = [.nonterminal only]

/-- Whether a nonterminal derives itself by such alternatives. -/
def Grammar.IsUnitCyclic (g : Grammar) (name : String) : Prop :=
  Relation.TransGen g.UnitRule name name

/-- Whether reductions lead to the start symbol from the symbols of an input, terminals that have a
class being replaced by it. -/
def Grammar.Reducible (g : Grammar) (input : String) : Prop :=
  ∃ tokens, scan .char input = .ok tokens ∧
    Relation.ReflTransGen g.Reduces (g.classified tokens) [g.startSymbol]

/-- A reduction of a single symbol. -/
inductive Grammar.Lifts (g : Grammar) : Symbol → Symbol → Prop where
  | intro {symbol : Symbol} {name : String} {p : Production} (hp : g.HasProduction name p)
      (hsymbols : p.symbols .char = [symbol]) : Lifts g symbol (.nonterminal name)

variable {g : Grammar} {name only : String} {p : Production} {symbol other : Symbol}
  {form next tokens : Form} {input : String} {limit : Nat}

/-! ### Single symbols -/

lemma Production.runs_of_symbols_char (h : p.symbols .char = [.nonterminal only]) :
    p.runs = [.nonterminal only] := by
  have hdivide : Form.divide p.runs = [] ++ .nonterminal only :: [] := h
  obtain ⟨left, right, hruns, hleft, hright⟩ := Form.exists_of_divide_eq hdivide
  have htokens : ∀ symbol ∈ left ++ .nonterminal only :: right, symbol.IsToken .run :=
    fun symbol hmem => isToken_of_scan p.scan_text (hruns ▸ hmem)
  obtain ⟨hltokens, hrtokens⟩ := List.forall_mem_append.mp htokens
  rw [hruns, Form.eq_nil_of_divide hltokens hleft,
    Form.eq_nil_of_divide (List.forall_mem_cons.mp hrtokens).2 hright, List.nil_append]

lemma Grammar.Lifts.exists_unitRule (h : g.Lifts (.nonterminal only) other) :
    ∃ name, other = .nonterminal name ∧ g.UnitRule name only := by
  cases h with
  | intro hp hsymbols => exact ⟨_, rfl, _, hp, Production.runs_of_symbols_char hsymbols⟩

lemma Grammar.transGen_unitRule_of_lifts (h : Relation.TransGen g.Lifts (.nonterminal only) other) :
    ∃ name, other = .nonterminal name ∧ Relation.TransGen g.UnitRule name only := by
  induction h with
  | single hlifts =>
    obtain ⟨name, rfl, hunit⟩ := hlifts.exists_unitRule
    exact ⟨name, rfl, .single hunit⟩
  | tail _ hlifts ih =>
    obtain ⟨middle, rfl, hmiddle⟩ := ih
    obtain ⟨name, rfl, hunit⟩ := hlifts.exists_unitRule
    exact ⟨name, rfl, .head hunit hmiddle⟩

lemma Grammar.wellFounded_lifts (hg : ∀ name, ¬g.IsUnitCyclic name) :
    WellFounded (flip g.Lifts) := by
  apply wellFounded_of_acyclic (g.rules.names.map .nonterminal)
  · -- what a symbol is reduced to has a rule
    rintro symbol middle other ⟨hp, -⟩ -
    exact List.mem_map.mpr ⟨_, hp.mem_names, rfl⟩
  · intro symbol hcycle
    obtain ⟨name, rfl⟩ : ∃ name, symbol = .nonterminal name := by
      cases hcycle with
      | single hlifts | tail _ hlifts =>
        cases hlifts with
        | intro => exact ⟨_, rfl⟩
    obtain ⟨other, hother, hunit⟩ := transGen_unitRule_of_lifts hcycle
    obtain rfl := Symbol.nonterminal.inj hother
    exact hg _ hunit

/-- There is no unit cycle if a nonterminal that is the only symbol of an alternative is of lower
rank than the nonterminal of the alternative. -/
lemma Grammar.not_isUnitCyclic_of_rank (rank : String → Nat)
    (hrank : ∀ rule ∈ g.productions, ∀ only ∈ rule.2.nonterminals,
      rule.2.runs = [.nonterminal only] → rank only < rank rule.1) (name : String) :
    ¬g.IsUnitCyclic name := by
  apply not_transGen_of_rank rank
  rintro name only ⟨p, hp, hruns⟩
  refine hrank _ (hasProduction_iff_mem_productions.mp hp) only ?_ hruns
  simp [Production.nonterminals, hruns]

/-! ### Forms -/

/-- What a reduction makes smaller: the length of a form, and then its symbols. The empty form
counts as longer than the single nonterminal to which it is reduced. -/
def Form.weight (form : Form) : Nat × Multiset Symbol :=
  (if form.isEmpty then 2 else form.length, (form : Multiset Symbol))

lemma Form.weight_of_ne_nil (h : form ≠ []) :
    form.weight = (form.length, (form : Multiset Symbol)) := by
  simp [weight, h]

lemma Grammar.Lifts.cutExpand (h : g.Lifts symbol other) (before after : Form) :
    Relation.CutExpand (flip g.Lifts) ((before ++ other :: after : Form) : Multiset Symbol)
      ((before ++ symbol :: after : Form) : Multiset Symbol) := by
  have hflip : flip g.Lifts other symbol := h
  rw [← Multiset.coe_add, ← Multiset.coe_add, Relation.cutExpand_add_left, ← Multiset.cons_coe,
    ← Multiset.cons_coe, ← Multiset.singleton_add, ← Multiset.singleton_add]
  exact Relation.cutExpand_single_add hflip _

/-- Every reduction makes a form shorter or lifts one of its symbols. -/
lemma Grammar.ReducesInSearch.weight_lt (h : g.ReducesInSearch form next) :
    Prod.Lex (· < ·) (Relation.CutExpand (flip g.Lifts)) next.weight form.weight := by
  cases h with
  | empty => exact .left _ _ (by simp)
  | @occurrence before after name p hp hempty =>
    have hne := p.symbols_char_ne_nil hempty
    rw [Form.weight_of_ne_nil (by simp), Form.weight_of_ne_nil (by simp [hne])]
    cases hsymbols : p.symbols .char with
    | nil => exact absurd hsymbols hne
    | cons symbol others =>
      cases others with
      | nil =>
        rw [List.append_assoc, List.singleton_append, List.length_append, List.length_append,
          List.length_cons, List.length_cons]
        exact .right _ ((Lifts.intro hp hsymbols).cutExpand before after)
      | cons second others =>
        apply Prod.Lex.left
        simp only [List.length_append, List.length_cons]
        omega

/-- Without unit cycles no form can be reduced forever. -/
theorem Grammar.wellFounded_reducesInSearch (hg : ∀ name, ¬g.IsUnitCyclic name) :
    WellFounded (flip g.ReducesInSearch) :=
  Subrelation.wf (fun h => ReducesInSearch.weight_lt h)
    (InvImage.wf Form.weight (wellFounded_lt.prod_lex (wellFounded_lifts hg).cutExpand))

lemma Grammar.reducesInSearch_of_leadsTo (h : g.reductionRules.space.LeadsTo form next) :
    g.ReducesInSearch form next := by
  cases h with
  | forced h => cases finds_of_eq h
  | choice h hr => exact reducesInSearch_of_choice h hr

lemma Grammar.terminates_reductions (hg : ∀ name, ¬g.IsUnitCyclic name) (form : Form) :
    g.reductionRules.space.Terminates form :=
  Subrelation.accessible (fun h => reducesInSearch_of_leadsTo h)
    ((wellFounded_reducesInSearch hg).apply form)

/-! ### The verdict -/

lemma Grammar.action_giveUp_ne_stepLimit {reason : Action}
    (hreason : reason ≠ .stepLimit limit) :
    (g.reductionRules.giveUp form reason).action ≠ .stepLimit limit := by
  rcases g.action_giveUp form reason with haction | haction
  · rwa [haction]
  · rw [haction]
    simp

lemma Grammar.stopsAtLimitOnly_reductions : g.reductionRules.space.StopsAtLimitOnly where
  step _ _ := rfl
  breakdown _ h := by cases finds_of_eq h
  deadEnd bound h := by
    cases finds_of_eq h
    exact action_giveUp_ne_stepLimit (by simp)
  exhausted _ bound := action_giveUp_ne_stepLimit (by simp)

lemma Grammar.exists_not_isStopped_reduction (hg : ∀ name, ¬g.IsUnitCyclic name) (input : String) :
    ∃ limit, ¬(g.searchReduction input limit).IsStopped := by
  cases htokens : scan .char input with
  | error e =>
    refine ⟨0, ?_⟩
    rw [searchReduction, htokens]
    rintro ⟨step, bound, hstep, haction⟩
    obtain rfl := Trace.eq_of_last hstep
    cases haction
  | ok tokens =>
    obtain ⟨enough, form, trace, hnormalize⟩ := g.exists_normalize tokens
    obtain ⟨limit, hlimit⟩ :=
      (terminates_reductions hg form).exists_not_isStopped stopsAtLimitOnly_reductions trace
    -- the terminals are replaced below one limit, and the search ends below another one
    refine ⟨max enough limit, ?_⟩
    simp only [searchReduction, htokens, hnormalize _ (Nat.le_max_left enough limit)]
    rcases SearchSpace.run_of_le g.isLabelled_reductions g.marksGoals_reductions
      (Nat.le_max_right enough limit) with heq | hovertaken
    · rwa [heq]
    · exact absurd hovertaken.isStopped hlimit

/-- The search accepts only what can be reduced to the start symbol. -/
lemma Grammar.reducible_of_accepted
    (haccepted : (g.searchReduction input limit).verdict = .accepted) : g.Reducible input := by
  cases htokens : scan .char input with
  | error e =>
    rw [searchReduction, htokens, Trace.verdict_push] at haccepted
    cases haccepted
  | ok tokens =>
    obtain ⟨state, hnormalize, -, hderives⟩ :=
      exists_derives_of_accepted htokens g.classesPreserve_true trivial haccepted
    rw [position_of_normalize hnormalize] at hderives
    exact ⟨tokens, htokens, hderives.reduces⟩

/-- Nothing that the search rejects can be reduced to the start symbol. -/
lemma Grammar.not_reducible_of_rejected
    (hrejected : (g.searchReduction input limit).verdict = .rejected) : ¬g.Reducible input := by
  rintro ⟨tokens, htokens, hreduces⟩
  exact not_derives_classified_of_rejected htokens hrejected (derives_of_reduces hreduces)

/-- Without empty productions a search that is not stopped accepts or rejects its input. -/
lemma Grammar.accepted_or_rejected (hempty : ¬g.HasEmptyProduction)
    (hstopped : ¬(g.searchReduction input limit).IsStopped) :
    (g.searchReduction input limit).verdict = .accepted ∨
      (g.searchReduction input limit).verdict = .rejected := by
  cases htokens : scan .char input with
  | error e =>
    right
    rw [searchReduction, htokens, Trace.verdict_push]
    rfl
  | ok tokens =>
    obtain ⟨before, last, htrace, hdecides⟩ := g.searchReduction_decides input limit
    have hlast : last ∈ (g.searchReduction input limit).toList := by
      rw [htrace]
      exact Trace.mem_push.mpr (.inr rfl)
    rw [htrace] at hstopped ⊢
    rcases hdecides.answers hstopped with haccepted | hrejected | ⟨-, haction⟩
    · exact .inl haccepted
    · exact .inr hrejected
    · exact absurd (hasEmptyProduction_of_inconclusive htokens hlast haction) hempty

/-- Without unit cycles every search whose limit is large enough is not stopped at it. If there are
no empty productions either then it accepts what can be reduced to the start symbol and rejects
everything else. -/
theorem Grammar.searchReduction_answers (g : Grammar) (hg : ∀ name, ¬g.IsUnitCyclic name)
    (input : String) : ∃ bound, ∀ limit, bound ≤ limit →
      ¬(g.searchReduction input limit).IsStopped ∧
        (¬g.HasEmptyProduction →
          ((g.searchReduction input limit).verdict = .accepted ↔ g.Reducible input) ∧
          ((g.searchReduction input limit).verdict = .rejected ↔ ¬g.Reducible input)) := by
  obtain ⟨bound, hbound⟩ := exists_not_isStopped_reduction hg input
  refine ⟨bound, fun limit hle => ?_⟩
  have hsame : Strategy.bottomUp.run g input limit = Strategy.bottomUp.run g input bound :=
    Strategy.run_eq_of_not_isStopped hbound hle
  rw [Strategy.run, Strategy.run] at hsame
  rw [hsame]
  refine ⟨hbound, fun hempty => ?_⟩
  rcases accepted_or_rejected hempty hbound with haccepted | hrejected
  · have hreducible := reducible_of_accepted haccepted
    simp [haccepted, hreducible]
  · have hunreducible := not_reducible_of_rejected hrejected
    simp [hrejected, hunreducible]

theorem Grammar.sums_answers :
    (∀ name, ¬Grammar.sums.IsUnitCyclic name) ∧ ¬Grammar.sums.HasEmptyProduction ∧
      ∃ bound, ∀ limit, bound ≤ limit →
        ¬(Grammar.sums.searchReduction "1+" limit).IsStopped ∧
          ((Grammar.sums.searchReduction "1+" limit).verdict = .accepted ↔
            Grammar.sums.Reducible "1+") ∧
          ((Grammar.sums.searchReduction "1+" limit).verdict = .rejected ↔
            ¬Grammar.sums.Reducible "1+") := by
  have hg : ∀ name, ¬Grammar.sums.IsUnitCyclic name := by
    apply Grammar.not_isUnitCyclic_of_rank fun name => if name = "<Sum>" then 1 else 0
    decide +kernel
  have hempty : ¬Grammar.sums.HasEmptyProduction := by
    rw [← Grammar.isEmpty_empties]
    decide +kernel
  obtain ⟨bound, hbound⟩ := Grammar.sums.searchReduction_answers hg "1+"
  exact ⟨hg, hempty, bound, fun limit hle => ⟨(hbound limit hle).1, (hbound limit hle).2 hempty⟩⟩

end GrammarTrace
