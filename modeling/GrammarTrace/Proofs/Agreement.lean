import GrammarTrace.Proofs.Classification
import GrammarTrace.Proofs.DerivationSearch
import GrammarTrace.Proofs.ReductionSearch
import GrammarTrace.Proofs.Search.Verdicts
import GrammarTrace.Strategy

/-!
# The verdicts of the two strategies

Either search accepts only what is generated. The search for a derivation rejects only what is not
generated if every nonterminal has a rule. The search for a reduction rejects only what is not
generated if classification loses nothing (`Grammar.not_generates_of_unreduced`), and may be wrong
otherwise (`Grammar.overlapping_rejected`). Where both conditions hold the two strategies never
contradict each other (`Strategy.verdicts_agree`).
-/

namespace GrammarTrace

/-- Whether the start symbol and every nonterminal of an alternative have a rule. -/
def Grammar.IsClosed (g : Grammar) : Prop :=
  (g.alternatives? g.start).isSome = true ∧
    ∀ ⦃name : String⦄ ⦃p : Production⦄, g.HasProduction name p →
      ∀ other ∈ p.nonterminals, (g.alternatives? other).isSome = true

/-- A grammar that uses the character of a class by itself, too. -/
def Grammar.overlapping : Grammar := .ofRules (.ofList
  [("<S>", [⟨"a<D>", [.terminal "a", .nonterminal "<D>"], by decide +kernel⟩]),
  ("<D>", [⟨"a", [.terminal "a"], by decide +kernel⟩])])

variable {g : Grammar} {input : String} {limit : Nat} {form next tokens : Form} {d : Derivation}
  {path : List Nat}

/-! ### Conditions on grammars, decided -/

lemma Grammar.isClosed_iff :
    g.IsClosed ↔ (g.alternatives? g.start).isSome = true ∧
      ∀ rule ∈ g.productions, ∀ other ∈ rule.2.nonterminals,
        (g.alternatives? other).isSome = true := by
  simp [IsClosed, hasProduction_iff_mem_productions]

instance (g : Grammar) : Decidable g.IsClosed :=
  decidable_of_iff _ Grammar.isClosed_iff.symm

lemma Grammar.lexicallySeparated_iff :
    g.LexicallySeparated ↔ ∀ rule ∈ g.productions, g.isLexicalClass rule.1 = true →
      rule.2.text.toList.length = 1 →
        ∀ other ∈ g.productions, .terminal rule.2.text ∈ other.2.symbols .char →
          other.1 = rule.1 ∧ other.2.text = rule.2.text := by
  simp only [LexicallySeparated, hasProduction_iff_mem_productions, Prod.forall]
  constructor
  · intro h lexical p hp hclass hlength name q hq hmem
    obtain ⟨c, hc⟩ := List.length_eq_one_iff.mp hlength
    have htext : p.text = String.singleton c := by
      rw [← String.toList_inj, hc, String.toList_singleton]
    rw [htext] at hmem ⊢
    exact h hclass hp htext hq hmem
  · intro h lexical p c hclass hp htext name q hq hmem
    rw [← htext] at hmem ⊢
    exact h lexical p hp hclass (by simp [htext]) name q hq hmem

instance (g : Grammar) : Decidable g.LexicallySeparated :=
  decidable_of_iff _ Grammar.lexicallySeparated_iff.symm

example : Grammar.sums.IsClosed ∧ Grammar.sums.LexicallySeparated := by decide +kernel

example : ¬Grammar.overlapping.LexicallySeparated := by decide +kernel

/-! ### The search for a derivation -/

lemma Grammar.exists_derives_of_succeeds (h : g.derivations.Succeeds d path) :
    ∃ form : Form, g.Derives .run d.form form ∧ form.IsTerminal ∧
      form.text = String.ofList d.unread := by
  induction h with
  | goal h =>
    cases Derivation.finds_of_eq h with
    | goal => exact ⟨[], .refl, Form.isTerminal_nil, by simp⟩
  | forced h _ ih =>
    cases Derivation.finds_of_eq h with
    | consume text rest unread =>
      obtain ⟨form, hderives, hform, htext⟩ := ih
      refine ⟨.terminal text :: form, ?_, by simp [hform], ?_⟩
      · simpa using hderives.context [.terminal text] []
      · rw [Form.text_cons, Symbol.text_terminal, htext, String.ofList_append,
          String.ofList_toList]
  | choice h ha _ ih =>
    cases Derivation.finds_of_eq h with
    | @choice name first others rest unread halternatives =>
      obtain ⟨form, hderives, hform, htext⟩ := ih
      have hp : g.HasProduction name _ := ⟨_, halternatives, List.mem_of_getElem? ha⟩
      exact ⟨form, .head (.intro [] rest hp) hderives, hform, htext⟩

/-- The search for a derivation has a way to the goal just if the input is generated. -/
theorem Grammar.solvable_iff_generates :
    g.derivations.Solvable (g.derivationOf input) ↔ g.Generates input := by
  constructor
  · rintro ⟨path, hpath⟩
    obtain ⟨form, hderives, hform, htext⟩ := exists_derives_of_succeeds hpath
    exact ⟨form, hderives, hform, by simp [htext, derivationOf]⟩
  · exact Generates.solvable

lemma Grammar.generates_of_derived
    (haccepted : (g.searchDerivation input limit).verdict = .accepted) : g.Generates input :=
  solvable_iff_generates.mp (SearchSpace.solvable_of_accepted marksGoals_derivations haccepted)

lemma Grammar.isSome_of_mem_nonterminals (hg : g.IsClosed) :
    g.derivations.Preserves fun d =>
      ∀ name ∈ d.form.nonterminals, (g.alternatives? name).isSome = true where
  forced := by
    intro d action next hd h
    cases Derivation.finds_of_eq h with
    | consume text rest unread => simpa using hd
  choice := by
    intro d first others p hd h hp name hname
    cases Derivation.finds_of_eq h with
    | @choice _ _ _ rest unread halternatives =>
      have hmem : name ∈ p.nonterminals ++ rest.nonterminals := by
        simpa [derivations, Derivation.expand, Production.nonterminals] using hname
      rcases List.mem_append.mp hmem with hmem | hmem
      · exact hg.2 ⟨_, halternatives, hp⟩ name hmem
      · exact hd name (by simp [hmem])

lemma Grammar.not_generates_of_underived (hg : g.IsClosed)
    (hrejected : (g.searchDerivation input limit).verdict = .rejected) : ¬g.Generates input := by
  rw [← solvable_iff_generates]
  refine SearchSpace.not_solvable_of_rejected marksGoals_derivations
    (isSome_of_mem_nonterminals hg) ?_ ?_ hrejected
  · -- the search is broken off only by a nonterminal without a rule
    intro d reason hd h
    cases Derivation.finds_of_eq h with
    | @undefined name rest unread hnone =>
      have hsome : (g.alternatives? name).isSome = true := hd name (by simp)
      rw [hnone] at hsome
      cases hsome
  · simpa [derivationOf, startSymbol] using hg.1

/-! ### The search for a reduction -/

lemma Grammar.derives_of_succeeds (h : g.reductionRules.space.Succeeds form path) :
    g.Derives .char [g.startSymbol] form := by
  induction h with
  | goal h =>
    cases finds_of_eq h with
    | goal heq => exact heq ▸ .refl
  | forced h => cases finds_of_eq h
  | choice h ha _ ih =>
    have hreduces := reducesInSearch_of_choice h (List.mem_of_getElem? ha)
    exact ih.tail hreduces.reduces.rewrites

/-- A search for a reduction accepts only if the form without terminals of classes is derived. -/
lemma Grammar.exists_derives_of_accepted {I : Form → Prop} (htokens : scan .char input = .ok tokens)
    (hclasses : ClassesPreserve g.lexicalClasses I) (hI : I tokens)
    (haccepted : (g.searchReduction input limit).verdict = .accepted) :
    ∃ state, g.normalize limit tokens = .running state ∧ I state.position ∧
      g.Derives .char [g.startSymbol] state.position := by
  have hsearches := searchesFrom_searchReduction limit htokens hclasses hI
  generalize g.searchReduction input limit = trace at hsearches haccepted
  cases hsearches with
  | stopped =>
    rw [Trace.verdict_push] at haccepted
    cases haccepted
  | searched hform _ _ hnormalize =>
    obtain ⟨path, hpath⟩ := SearchSpace.solvable_of_accepted marksGoals_reductions haccepted
    exact ⟨_, hnormalize, hform, derives_of_succeeds hpath⟩

lemma Grammar.generates_of_reduced (hplain : '<' ∉ input.toList)
    (haccepted : (g.searchReduction input limit).verdict = .accepted) : g.Generates input := by
  have htokens := scan_char_of_plain hplain
  obtain ⟨state, -, hposition, hderives⟩ := exists_derives_of_accepted htokens
    classesPreserve_derivesTokens (g.derivesTokens_of_scan htokens) haccepted
  rw [← text_of_scan htokens]
  exact generates_of_derives_char (hderives.trans hposition.1) (isTerminal_of_scan htokens hplain)

/-- A search for a reduction rejects only if the classified form cannot be derived. -/
lemma Grammar.not_derives_classified_of_rejected (htokens : scan .char input = .ok tokens)
    (hrejected : (g.searchReduction input limit).verdict = .rejected) :
    ¬g.Derives .char [g.startSymbol] (g.classified tokens) := by
  obtain ⟨step, hlast, hfailure⟩ := Trace.exists_last_of_rejected hrejected
  obtain ⟨⟨state, hstate, hunreachable⟩, form, reason, -, rfl⟩ :=
    exists_giveUp htokens hlast (.inl hfailure)
  rw [position_of_normalize hstate] at hunreachable
  intro hderives
  apply hunreachable
  exact reflTransGen_inSearch (not_hasEmptyProduction_of_giveUp hfailure) hderives.reduces

lemma Grammar.Generates.derives_classified (hg : g.SurvivesClassification)
    (hplain : '<' ∉ input.toList) (h : g.Generates input) :
    g.Derives .char [g.startSymbol]
      (g.classified (input.toList.map fun c => .terminal (String.singleton c))) := by
  obtain ⟨form, hderives, hform, rfl⟩ := h
  have hchars := Derives.classified hg hderives.divide
  rw [Form.divide_of_isTerminal hform] at hchars
  exact hchars

/-- If every alternative survives classification then an input of plain text that the search for a
reduction rejects is not generated. -/
theorem Grammar.not_generates_of_unreduced (g : Grammar) (hg : g.SurvivesClassification)
    (input : String) (hplain : '<' ∉ input.toList) (limit : Nat)
    (hrejected : (g.searchReduction input limit).verdict = .rejected) : ¬g.Generates input := by
  intro hgenerates
  exact not_derives_classified_of_rejected (scan_char_of_plain hplain) hrejected
    (hgenerates.derives_classified hg hplain)

theorem Grammar.sums_not_generates :
    Grammar.sums.SurvivesClassification ∧ '<' ∉ "1+".toList ∧
      (Grammar.sums.searchReduction "1+" 100).verdict = .rejected ∧
      ¬Grammar.sums.Generates "1+" := by
  have hseparated : Grammar.sums.LexicallySeparated := by decide +kernel
  have hsurvives := hseparated.survivesClassification
  have hplain : '<' ∉ "1+".toList := by decide
  have hrejected : (Grammar.sums.searchReduction "1+" 100).verdict = .rejected := by
    decide +kernel
  exact ⟨hsurvives, hplain, hrejected,
    Grammar.sums.not_generates_of_unreduced hsurvives "1+" hplain 100 hrejected⟩

/-- Classification turns both letters into the class, and the literal letter is not found again. -/
theorem Grammar.overlapping_rejected :
    Grammar.overlapping.IsClosed ∧ '<' ∉ "aa".toList ∧
      (Grammar.overlapping.searchReduction "aa" 100).verdict = .rejected ∧
      Grammar.overlapping.Generates "aa" := by
  have haccepted : (Grammar.overlapping.searchDerivation "aa" 100).verdict = .accepted := by
    decide +kernel
  exact ⟨by decide +kernel, by decide, by decide +kernel, generates_of_derived haccepted⟩

/-! ### Both searches -/

lemma Strategy.generates_of_accepted (strategy : Strategy) (hplain : '<' ∉ input.toList)
    (haccepted : (strategy.run g input limit).verdict = .accepted) : g.Generates input := by
  cases strategy with
  | topDown => exact Grammar.generates_of_derived haccepted
  | bottomUp => exact Grammar.generates_of_reduced hplain haccepted

lemma Strategy.not_generates_of_separated (strategy : Strategy) (hclosed : g.IsClosed)
    (hseparated : g.LexicallySeparated) (hplain : '<' ∉ input.toList)
    (hrejected : (strategy.run g input limit).verdict = .rejected) : ¬g.Generates input := by
  cases strategy with
  | topDown => exact Grammar.not_generates_of_underived hclosed hrejected
  | bottomUp =>
    intro hgenerates
    exact Grammar.not_derives_classified_of_rejected (scan_char_of_plain hplain) hrejected
      (hgenerates.derives_classified hseparated.survivesClassification hplain)

/-- If every nonterminal has a rule and the characters of classes occur nowhere else then no input
of plain text is accepted with one strategy and rejected with another, whatever the limits are. -/
theorem Strategy.verdicts_agree (g : Grammar) (hclosed : g.IsClosed)
    (hseparated : g.LexicallySeparated) (input : String) (hplain : '<' ∉ input.toList)
    (strategy other : Strategy) (limit bound : Nat) :
    ¬((strategy.run g input limit).verdict = .accepted ∧
      (other.run g input bound).verdict = .rejected) := by
  rintro ⟨haccepted, hrejected⟩
  exact other.not_generates_of_separated hclosed hseparated hplain hrejected
    (strategy.generates_of_accepted hplain haccepted)

theorem Strategy.sums_agree :
    Grammar.sums.IsClosed ∧ Grammar.sums.LexicallySeparated ∧ '<' ∉ "1+0".toList ∧
      (Strategy.topDown.run Grammar.sums "1+0" 100).verdict = .accepted ∧
      (Strategy.bottomUp.run Grammar.sums "1+0" 7).verdict ≠ .rejected := by
  have hclosed : Grammar.sums.IsClosed := by decide +kernel
  have hseparated : Grammar.sums.LexicallySeparated := by decide +kernel
  have hplain : '<' ∉ "1+0".toList := by decide
  have haccepted : (Strategy.topDown.run Grammar.sums "1+0" 100).verdict = .accepted := by
    decide +kernel
  refine ⟨hclosed, hseparated, hplain, haccepted, ?_⟩
  intro hrejected
  exact Strategy.verdicts_agree _ hclosed hseparated "1+0" hplain .topDown .bottomUp 100 7
    ⟨haccepted, hrejected⟩

end GrammarTrace
