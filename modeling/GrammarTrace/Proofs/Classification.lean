import GrammarTrace.Proofs.Normalization

/-!
# Derivations of classified forms

Replacing the terminals of a form by their classes replaces every symbol by itself, whatever stands
beside it (`Grammar.position_of_normalize`). What is derived before need not be derived after: a
grammar may use the characters of a class elsewhere too. Nothing is lost if every alternative is
still derived once it has been classified (`Grammar.Derives.classified`), and that is so if the
characters of a class occur nowhere else (`Grammar.LexicallySeparated.survivesClassification`).
-/

namespace GrammarTrace

/-- The class of a terminal that has one, and any other symbol itself. -/
def Grammar.classify (g : Grammar) (symbol : Symbol) : Symbol :=
  match classOf? g.lexicalClasses symbol with
  | none => symbol
  | some name => .nonterminal name

/-- A form with its terminals replaced by their classes. -/
def Grammar.classified (g : Grammar) (form : Form) : Form := form.map g.classify

/-- Whether every alternative is still derived by its nonterminal once its terminals have been
replaced by their classes. -/
def Grammar.SurvivesClassification (g : Grammar) : Prop :=
  ∀ ⦃name : String⦄ ⦃p : Production⦄, g.HasProduction name p →
    g.Derives .char [.nonterminal name] (g.classified (p.symbols .char))

/-- Whether a character that is an alternative of a lexical class occurs in no other alternative of
the grammar. -/
def Grammar.LexicallySeparated (g : Grammar) : Prop :=
  ∀ ⦃lexical : String⦄ ⦃p : Production⦄ ⦃c : Char⦄, g.isLexicalClass lexical = true →
    g.HasProduction lexical p → p.text = String.singleton c →
    ∀ ⦃name : String⦄ ⦃q : Production⦄, g.HasProduction name q →
      .terminal (String.singleton c) ∈ q.symbols .char →
      name = lexical ∧ q.text = String.singleton c

variable {g : Grammar} {name : String} {p : Production} {symbol : Symbol} {form next : Form}
  {limit : Nat} {state : SearchState Form Reduction}

/-! ### Classified forms -/

lemma Grammar.classify_of_some (h : classOf? g.lexicalClasses symbol = some name) :
    g.classify symbol = .nonterminal name := by
  rw [classify, h]

lemma Grammar.classify_of_none (h : classOf? g.lexicalClasses symbol = none) :
    g.classify symbol = symbol := by
  rw [classify, h]

@[simp] lemma Grammar.classify_nonterminal (name : String) :
    g.classify (.nonterminal name) = .nonterminal name := rfl

@[simp] lemma Grammar.classified_append (left right : Form) :
    g.classified (left ++ right) = g.classified left ++ g.classified right :=
  List.map_append

@[simp] lemma Grammar.classified_cons (symbol : Symbol) (form : Form) :
    g.classified (symbol :: form) = g.classify symbol :: g.classified form := rfl

@[simp] lemma Grammar.classified_nil : g.classified [] = [] := rfl

lemma Grammar.classified_eq_self (h : ∀ symbol ∈ form, classOf? g.lexicalClasses symbol = none) :
    g.classified form = form :=
  calc form.map g.classify
    _ = form.map id := List.map_congr_left fun symbol hmem => classify_of_none (h symbol hmem)
    _ = form := List.map_id form

lemma Grammar.ReplacesTo.classified_eq {after : SearchState Form Reduction}
    (h : ReplacesTo g.lexicalClasses limit state after) :
    g.classified after.position = g.classified state.position := by
  induction h with
  | refl => rfl
  | tail _ hstep ih =>
    rw [← ih]
    cases hstep.2 with
    | intro hbefore hclass => simp [classify_of_some hclass]

/-- Replacing terminals by their classes leaves the classified form. -/
theorem Grammar.position_of_normalize {tokens : Form}
    (h : g.normalize limit tokens = .running state) : state.position = g.classified tokens := by
  obtain ⟨last, hreach, hends⟩ := g.exists_replacesLast limit tokens
  rw [h] at hends
  cases hends with
  | done hnone => rw [← classified_eq_self hnone, hreach.classified_eq]

/-! ### Derivations -/

lemma Grammar.Rewrites.classified (hg : g.SurvivesClassification)
    (h : g.Rewrites .char form next) : g.Derives .char (g.classified form) (g.classified next) := by
  cases h with
  | @intro before after name p hp =>
    have hderives := (hg hp).context (g.classified before) (g.classified after)
    simpa only [classified_append, classified_cons, classify_nonterminal, List.append_assoc,
      List.singleton_append] using hderives

/-- What is derived is still derived once both forms have been classified. -/
theorem Grammar.Derives.classified (hg : g.SurvivesClassification)
    (h : g.Derives .char form next) : g.Derives .char (g.classified form) (g.classified next) := by
  induction h with
  | refl => exact .refl
  | tail _ hstep ih => exact ih.trans (hstep.classified hg)

/-! ### Separated classes -/

/-- The terminals of a production are single characters. -/
lemma Production.exists_char_of_mem {text : String} (h : .terminal text ∈ p.symbols .char) :
    ∃ c, text = String.singleton c := by
  rw [Production.symbols_char, Form.divide, List.mem_flatMap] at h
  obtain ⟨symbol, -, hmem⟩ := h
  cases symbol with
  | nonterminal name => simp [Production.divideSymbol] at hmem
  | terminal stretch =>
    obtain ⟨c, -, heq⟩ := List.mem_map.mp hmem
    exact ⟨c, (Symbol.terminal.inj heq).symm⟩

lemma Production.ne_bracket_of_text {c : Char} (h : p.text = String.singleton c) : c ≠ '<' := by
  rintro rfl
  have hscan := p.scan_text
  rw [h, scan, String.toList_singleton] at hscan
  simp [scanAt] at hscan

lemma Grammar.isLexicalClass_of_classOf (h : classOf? g.lexicalClasses symbol = some name) :
    g.isLexicalClass name = true := by
  cases symbol with
  | nonterminal other => cases h
  | terminal text =>
    rw [classOf?, Option.map_eq_some_iff] at h
    obtain ⟨⟨name, alternatives⟩, hfind, rfl⟩ := h
    obtain ⟨hmem, hbody⟩ := List.mem_filter.mp (List.mem_of_find?_eq_some hfind)
    rw [isLexicalClass, alternatives?, Table.get?_eq_some_iff.mpr hmem]
    exact hbody

/-- A class that is used for its characters only survives. -/
theorem Grammar.LexicallySeparated.survivesClassification (hg : g.LexicallySeparated) :
    g.SurvivesClassification := by
  intro name q hq
  by_cases hclass : ∃ symbol ∈ q.symbols .char, ∃ lexical,
      classOf? g.lexicalClasses symbol = some lexical
  · -- the alternative is a character of its own class, which is all that is left of it
    obtain ⟨symbol, hmem, lexical, hclass⟩ := hclass
    obtain ⟨text, p, rfl, hp, htext⟩ := exists_of_classOf hclass
    obtain ⟨c, rfl⟩ := q.exists_char_of_mem hmem
    obtain ⟨rfl, hqtext⟩ := hg (isLexicalClass_of_classOf hclass) hp htext hq hmem
    have hne : q.text ≠ "" := by
      rw [hqtext, Ne, ← String.toList_inj]
      simp
    have hplain : '<' ∉ q.text.toList := by
      rw [hqtext, String.toList_singleton, List.mem_singleton]
      exact (q.ne_bracket_of_text hqtext).symm
    rw [q.symbols_char_of_plain hne hplain, hqtext, String.toList_singleton, List.map_singleton,
      classified_cons, classify_of_some hclass]
    exact .refl
  · have hnone : ∀ symbol ∈ q.symbols .char, classOf? g.lexicalClasses symbol = none := by
      intro symbol hmem
      by_contra hsome
      obtain ⟨lexical, hlexical⟩ := Option.ne_none_iff_exists'.mp hsome
      exact hclass ⟨symbol, hmem, lexical, hlexical⟩
    rw [classified_eq_self hnone]
    exact .single hq.rewrites

end GrammarTrace
