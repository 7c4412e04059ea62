import GrammarTrace.Proofs.CanonicalForms
import GrammarTrace.Proofs.Replay
import GrammarTrace.Proofs.RuleTexts

/-!
# Displays that can be read back

A step displays its form as text, with nothing between the symbols. In a search for a reduction the
text still says which form it is: scanning it gives the form back
(`Grammar.isReadable_searchReduction`). This takes a grammar whose rules are named as scanning names
nonterminals, because the names of its rules end up in forms.
-/

namespace GrammarTrace

/-- Whether the names of the rules of a grammar are bracketed and have no brackets inside. -/
def Grammar.HasCanonicalNames (g : Grammar) : Prop :=
  ∀ name ∈ g.rules.names, (Symbol.nonterminal name).IsToken .char

/-- Whether the form of a step can be read off its display, which is also the text by which the step
names a form that it abandons. -/
structure Step.IsReadable (step : Step) : Prop where
  scan_display : scan .char step.display = .ok step.form
  abandoned : ∀ text, step.action = .abandonReduction text → text = step.display

variable {g : Grammar} {name input : String} {limit : Nat} {p : Production}
  {form next before replaced after tokens : Form} {step : Step}

/-! ### Names -/

/-- The grammars that are read have such names. -/
lemma RuleText.hasCanonicalNames_of_read {file source : String} {reading : Reading}
    (h : read file source = .ok reading) : reading.grammar.HasCanonicalNames := by
  intro name hname
  obtain ⟨rule, hrule, rfl⟩ := List.mem_map.mp hname
  exact ((writable_of_read h).isRule rule hrule).name.isToken

/-! ### Forms -/

lemma Form.isCanonical_char :
    form.IsCanonical .char ↔ ∀ symbol ∈ form, symbol.IsToken .char := by
  constructor
  · exact IsCanonical.isToken
  · exact fun h => ⟨h, fun hrun => by cases hrun⟩

/-- Symbols of a canonical form may give way to a nonterminal. -/
lemma Form.IsCanonical.replace (h : Form.IsCanonical .char (before ++ replaced ++ after))
    (hname : (Symbol.nonterminal name).IsToken .char) :
    Form.IsCanonical .char (before ++ .nonterminal name :: after) := by
  rw [isCanonical_char] at h ⊢
  intro symbol hsymbol
  rcases List.mem_append.mp hsymbol with hbefore | hafter
  · exact h symbol (by simp [hbefore])
  · rcases List.mem_cons.mp hafter with rfl | hafter
    · exact hname
    · exact h symbol (by simp [hafter])

lemma Grammar.HasCanonicalNames.classesPreserve (hg : g.HasCanonicalNames) :
    ClassesPreserve g.lexicalClasses (Form.IsCanonical .char) := by
  intro before after symbol name hform hclass
  obtain ⟨text, p, rfl, hp, -⟩ := exists_of_classOf hclass
  have hsplit : before ++ .terminal text :: after = before ++ [.terminal text] ++ after := by simp
  exact (hsplit ▸ hform).replace (hg name hp.mem_names)

lemma Grammar.ReducesInSearch.isCanonical (h : g.ReducesInSearch form next)
    (hg : g.HasCanonicalNames) (hform : form.IsCanonical .char) : next.IsCanonical .char := by
  cases h.reduces with
  | @intro before after name p hp => exact hform.replace (hg name hp.mem_names)

/-! ### Steps -/

lemma Grammar.HasCanonicalNames.isCanonical (hg : g.HasCanonicalNames)
    (htokens : scan .char input = .ok tokens)
    (hstep : step ∈ (g.searchReduction input limit).toList) : step.form.IsCanonical .char := by
  have hstart : tokens.IsCanonical .char := (scanned_of_scan htokens).isCanonical
  have hreduces : ∀ ⦃form next : Form⦄, form.IsCanonical .char → g.ReducesInSearch form next →
      next.IsCanonical .char := fun _ _ hform h => h.isCanonical hg hform
  rcases mem_searchReduction htokens hg.classesPreserve hreduces hstart hstep with
    (rfl | hnormalizes) | hrecords
  · exact hstart
  · exact hnormalizes.1
  · obtain ⟨form, hform, action, hshown, -⟩ :=
      hrecords.exists_shows (preserves_of_reducesInSearch hreduces)
        fun _ reason => ⟨reason, form_giveUp⟩
    rw [hshown]
    exact hform

lemma Grammar.ReductionStep.eq_display {earlier : List Step} {text : String}
    (h : g.ReductionStep tokens earlier step) (haction : step.action = .abandonReduction text) :
    text = step.display := by
  cases h with
  | abandonment h _ _ hview =>
    rw [haction] at h
    rw [Action.abandonReduction.inj h, Step.display, show step.form = _ from
      congrArg View.form hview]
    rfl
  | ending hending => simp [haction, Action.isEnding] at hending
  | start _ h | normalize h | reduce h | retry h => cases haction.symm.trans h

/-- The step at which an input is refused that cannot be scanned displays an empty form. -/
lemma Grammar.HasCanonicalNames.isReadable (hg : g.HasCanonicalNames)
    (hstep : step ∈ (g.searchReduction input limit).toList) : step.IsReadable := by
  cases htokens : scan .char input with
  | error e =>
    rw [searchReduction, htokens] at hstep
    obtain rfl := List.mem_singleton.mp hstep
    have hempty : Form.IsCanonical .char [] := Form.isCanonical_char.mpr (List.forall_mem_nil _)
    exact ⟨hempty.scan_text, fun _ haction => by cases haction⟩
  | ok tokens =>
    refine ⟨(hg.isCanonical htokens hstep).scan_text, fun text haction => ?_⟩
    obtain ⟨i, hi⟩ := List.mem_iff_getElem?.mp hstep
    exact ((completes_searchReduction limit htokens).obeys i step hi).eq_display haction

lemma Step.IsReadable.display_eq_iff {other : Step} (h : step.IsReadable)
    (hother : other.IsReadable) : step.display = other.display ↔ step.form = other.form := by
  constructor
  · intro heq
    have hscan := h.scan_display
    rw [heq, hother.scan_display] at hscan
    exact (Except.ok.inj hscan).symm
  · exact congrArg Form.text

/-- Whatever a search for a reduction records, scanning a display gives back the form that is
displayed, so that displays are equal just if the forms are. -/
theorem Grammar.isReadable_searchReduction :
    (∀ file source reading, RuleText.read file source = .ok reading →
      reading.grammar.HasCanonicalNames) ∧
    ∀ g : Grammar, g.HasCanonicalNames → ∀ input limit,
      ∀ step ∈ (g.searchReduction input limit).toList, step.IsReadable ∧
        ∀ other : Grammar, other.HasCanonicalNames → ∀ otherInput otherLimit,
          ∀ otherStep ∈ (other.searchReduction otherInput otherLimit).toList,
            step.display = otherStep.display ↔ step.form = otherStep.form := by
  refine ⟨fun _ _ _ => RuleText.hasCanonicalNames_of_read, ?_⟩
  intro g hg input limit step hstep
  refine ⟨hg.isReadable hstep, ?_⟩
  intro other hother otherInput otherLimit otherStep hotherStep
  exact (hg.isReadable hstep).display_eq_iff (hother.isReadable hotherStep)

theorem Grammar.sums_isReadable :
    Grammar.sums.HasCanonicalNames ∧
    ∃ reading, RuleText.read "" "<S> := <Bit>+<S> | <Bit>\n<Bit> := 0 | 1" = .ok reading ∧
      reading.grammar.HasCanonicalNames ∧
      ∀ step ∈ (Grammar.sums.searchReduction "1+0" 100).toList, step.IsReadable ∧
        ∀ otherStep ∈ (reading.grammar.searchReduction "0+<Bit>" 100).toList,
          step.display = otherStep.display ↔ step.form = otherStep.form := by
  have hsums : Grammar.sums.HasCanonicalNames := by
    intro name hname
    rcases List.mem_pair.mp hname with rfl | rfl
    · exact ⟨['S', 'u', 'm'], by simp [isNameChar], rfl⟩
    · exact ⟨['B', 'i', 't'], by simp [isNameChar], rfl⟩
  have hread : (RuleText.read "" "<S> := <Bit>+<S> | <Bit>\n<Bit> := 0 | 1").toBool = true := by
    decide +kernel
  cases hreading : RuleText.read "" "<S> := <Bit>+<S> | <Bit>\n<Bit> := 0 | 1" with
  | error faults =>
    rw [hreading] at hread
    cases hread
  | ok reading =>
    have hnames := Grammar.isReadable_searchReduction.1 _ _ reading hreading
    refine ⟨hsums, reading, rfl, hnames, fun step hstep => ?_⟩
    obtain ⟨hreadable, hdisplays⟩ := Grammar.isReadable_searchReduction.2 _ hsums _ _ step hstep
    exact ⟨hreadable, hdisplays _ hnames _ _⟩

end GrammarTrace
