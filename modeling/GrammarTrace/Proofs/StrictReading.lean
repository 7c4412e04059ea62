import GrammarTrace.Proofs.RuleTexts
import GrammarTrace.Proofs.Sentences

/-!
# Readings without warnings

A reading warns of every nonterminal that is used and not defined, where only the last definition of
a nonterminal counts. If it warns of none, then neither a search for a derivation nor the making of
a sentence ever comes upon a nonterminal without a rule, whichever rule they start at
(`RuleText.safe_of_strict`).
-/

namespace GrammarTrace

/-! ### Grammars in which every nonterminal is found -/

/-- Whether no search for a derivation comes upon a nonterminal without a rule, and only the bound
on the depth keeps a sentence from being made. -/
structure Grammar.IsSafe (g : Grammar) : Prop where
  action_ne : ∀ input limit, ∀ step ∈ (g.searchDerivation input limit).toList,
    ∀ name, step.action ≠ .undefinedNonterminal name
  fault_eq : ∀ (σ : Type) (chooser : Chooser σ) (maxDepth : Nat) (state : σ)
    (fault : SentenceFault), (g.sentence chooser maxDepth state).1 = .error fault →
      fault = .recursionLimit (hardLimit maxDepth)

variable {g : Grammar} {input name : String} {limit : Nat} {step : Step}

/-- The search for a derivation is broken off only at a nonterminal without a rule. -/
lemma Grammar.IsClosed.action_ne (hg : g.IsClosed)
    (hstep : step ∈ (g.searchDerivation input limit).toList) :
    step.action ≠ .undefinedNonterminal name := by
  intro haction
  have hstart : ∀ name ∈ (g.derivationOf input).form.nonterminals,
      (g.alternatives? name).isSome = true := by
    simpa [derivationOf, startSymbol] using hg.1
  have hrecords := SearchSpace.mem_run (isSome_of_mem_nonterminals hg)
    (SearchSpace.sound_of_start hstart) hstep
  rcases hrecords with hempty | hrecords
  · cases hempty
  cases hrecords with
  | forced _ h =>
    cases Derivation.finds_of_eq h with
    | consume => cases haction
  | choice => cases haction
  | retry => cases haction
  | abandon => cases haction
  | limit => cases haction
  | goal => cases haction
  | breakdown hp h =>
    cases Derivation.finds_of_eq h with
    | undefined rest unread hnone =>
      have hsome := hp _ List.mem_cons_self
      rw [hnone] at hsome
      cases hsome
  | deadEnd _ h =>
    cases Derivation.finds_of_eq h with
    | leftover => cases haction
    | barren => cases haction
    | @refusal text unread =>
      cases unread with
      | nil => cases haction
      | cons => cases haction
  | exhausted => cases haction

/-- Nothing is missed if every nonterminal has an alternative. -/
lemma Grammar.IsExpandable.isSafe (hg : g.IsExpandable) : g.IsSafe where
  action_ne _ _ _ hstep _ := hg.isClosed.action_ne hstep
  fault_eq _ _ _ _ _ h := hg.fault_eq h

/-! ### What a reading defines -/

namespace RuleText

variable {file source : String} {reading : Reading} {definitions : Table Definition}
  {p : Production}

lemma undefinedIn_eq_nil_iff {d : Definition} : undefinedIn definitions d = [] ↔
    ∀ p ∈ d.alternatives, ∀ other ∈ p.nonterminals, other ∈ definitions.names := by
  simp only [undefinedIn, ← Table.isSome_get?_iff, List.filter_eq_nil_iff, List.mem_eraseDups,
    List.mem_flatMap, forall_exists_index, and_imp, Bool.not_eq_true, Option.isNone_eq_false_iff]
  exact ⟨fun h p hp other => h other p hp, fun h other p hp => h p hp other⟩

/-- There is nothing to warn of if and only if every nonterminal that is used is defined. -/
lemma warnings_eq_nil_iff : warnings definitions = [] ↔
    ∀ entry ∈ definitions.entries, ∀ p ∈ entry.2.alternatives,
      ∀ other ∈ p.nonterminals, other ∈ definitions.names := by
  simp only [warnings, List.flatMap_eq_nil_iff, List.map_eq_nil_iff, undefinedIn_eq_nil_iff]

lemma exists_definitions_of_read (hread : read file source = .ok reading) :
    ∃ definitions, reading = ofDefinitions definitions := by
  obtain ⟨-, -, hreading⟩ := read_eq_ok_iff.mp hread
  exact ⟨_, hreading⟩

lemma exists_hasProduction (hread : read file source = .ok reading)
    (hname : name ∈ reading.grammar.rules.names) :
    ∃ p, reading.grammar.HasProduction name p := by
  obtain ⟨rule, hrule, rfl⟩ := List.mem_map.mp hname
  obtain ⟨p, hp⟩ := List.exists_mem_of_ne_nil _ ((writable_of_read hread).isRule rule hrule).ne_nil
  exact ⟨p, rule.2, Table.get?_eq_some_iff.mpr hrule, hp⟩

lemma start_mem_names (hread : read file source = .ok reading) :
    reading.grammar.start ∈ reading.grammar.rules.names := by
  have hne : reading.grammar.rules.names ≠ [] :=
    mt List.map_eq_nil_iff.mp (writable_of_read hread).ne_nil
  obtain ⟨first, others, hnames⟩ := List.exists_cons_of_ne_nil hne
  rw [grammar_of_read hread, Grammar.ofRules, hnames]
  exact List.mem_cons_self

/-- What an alternative uses has a rule if there is nothing to warn of. -/
lemma mem_names_of_hasProduction (hwarnings : warnings definitions = [])
    (hp : (ofDefinitions definitions).grammar.HasProduction name p) :
    ∀ other ∈ p.nonterminals, other ∈ (ofDefinitions definitions).grammar.rules.names := by
  obtain ⟨alternatives, halternatives, hmem⟩ := hp
  obtain ⟨definition, hdefinition, rfl⟩ :=
    Table.mem_entries_mapValues.mp (Table.get?_eq_some_iff.mp halternatives)
  have hnames : (ofDefinitions definitions).grammar.rules.names = definitions.names :=
    Table.names_mapValues ..
  rw [hnames]
  exact warnings_eq_nil_iff.mp hwarnings _ hdefinition p hmem

lemma isExpandable_withStart {start : String} (hread : read file source = .ok reading)
    (hwarnings : reading.warnings = []) (hstart : start ∈ reading.grammar.rules.names) :
    (reading.grammar.withStart start).IsExpandable := by
  refine ⟨exists_hasProduction hread hstart, fun name p hp other hother => ?_⟩
  obtain ⟨definitions, rfl⟩ := exists_definitions_of_read hread
  exact exists_hasProduction hread (mem_names_of_hasProduction hwarnings hp other hother)

lemma strict_eq_ok_iff :
    reading.strict = .ok g ↔ reading.warnings = [] ∧ g = reading.grammar := by
  rw [Reading.strict]
  split_ifs with h
  · simp [List.isEmpty_iff.mp h, eq_comm]
  · simp [mt List.isEmpty_iff.mpr h]

/-- A text is read strictly if and only if there is nothing to warn of. Its grammar is then safe
with the start symbol it comes with, and with any other name that has a rule as the start symbol. -/
theorem safe_of_strict (hread : read file source = .ok reading) :
    (∀ g, reading.strict = .ok g ↔ reading.warnings = [] ∧ g = reading.grammar) ∧
    (reading.warnings = [] → reading.grammar.IsSafe ∧
      ∀ start ∈ reading.grammar.rules.names, (reading.grammar.withStart start).IsSafe) := by
  refine ⟨fun g => strict_eq_ok_iff, fun hwarnings => ?_⟩
  have hsafe : ∀ start ∈ reading.grammar.rules.names, (reading.grammar.withStart start).IsSafe :=
    fun start hstart => (isExpandable_withStart hread hwarnings hstart).isSafe
  exact ⟨hsafe _ (start_mem_names hread), hsafe⟩

/-- A definition that is replaced by a later one may use what is not defined. -/
theorem redefined_safe_of_strict :
    ∃ reading, read "" "<S> := <B>\n<S> := a<A> | b\n<A> := <S>c" = .ok reading ∧
      reading.warnings = [] ∧ reading.grammar.IsSafe ∧
      "<A>" ∈ reading.grammar.rules.names ∧ (reading.grammar.withStart "<A>").IsSafe := by
  have hread : (read "" "<S> := <B>\n<S> := a<A> | b\n<A> := <S>c").toOption.any (fun reading =>
      reading.warnings.isEmpty && reading.grammar.rules.names.contains "<A>") = true := by
    decide +kernel
  cases hreading : read "" "<S> := <B>\n<S> := a<A> | b\n<A> := <S>c" with
  | error faults =>
    rw [hreading] at hread
    cases hread
  | ok reading =>
    rw [hreading] at hread
    obtain ⟨hwarnings, hname⟩ : reading.warnings = [] ∧ "<A>" ∈ reading.grammar.rules.names := by
      simpa [Except.toOption] using hread
    obtain ⟨hsafe, hstarts⟩ := (safe_of_strict hreading).2 hwarnings
    exact ⟨reading, rfl, hwarnings, hsafe, hname, hstarts _ hname⟩

end RuleText

end GrammarTrace
