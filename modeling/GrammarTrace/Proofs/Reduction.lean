import GrammarTrace.Proofs.Derivability
import GrammarTrace.Proofs.Scanning
import GrammarTrace.Search.Reduction

/-!
# The reductions of a form

A reduction undoes a step of a derivation, character by character. The reductions that are found in
a form are those by nonempty productions and, in the empty form, those by empty ones
(`Grammar.reducesInSearch_iff`).
-/

namespace GrammarTrace

variable {g : Grammar} {name : String} {p : Production} {form next : Form}

/-! ### Productions in declaration order -/

lemma Grammar.hasProduction_iff_mem_productions :
    g.HasProduction name p ↔ (name, p) ∈ g.productions := by
  simp only [HasProduction, alternatives?, Table.get?_eq_some_iff, productions, List.mem_flatMap,
    List.mem_map, Prod.mk.injEq, Prod.exists]
  constructor
  · rintro ⟨alternatives, hmem, hp⟩
    exact ⟨name, alternatives, hmem, p, hp, rfl, rfl⟩
  · rintro ⟨name, alternatives, hmem, p, hp, rfl, rfl⟩
    exact ⟨alternatives, hmem, hp⟩

lemma Grammar.mem_patterns {pattern : Pattern} :
    pattern ∈ g.reductionRules.patterns ↔ ∃ name p, g.HasProduction name p ∧ p.isEmpty = false ∧
      pattern = ⟨name, p, p.symbols .char⟩ := by
  simp only [reductionRules, List.mem_map, List.mem_filter, Prod.exists,
    hasProduction_iff_mem_productions, Bool.not_eq_eq_eq_not, Bool.not_true, and_assoc]
  simp only [eq_comm]

lemma Grammar.mem_empties {pattern : Pattern} :
    pattern ∈ g.reductionRules.empties ↔ ∃ name p, g.HasProduction name p ∧ p.isEmpty = true ∧
      pattern = ⟨name, p, []⟩ := by
  simp only [reductionRules, List.mem_map, List.mem_filter, Prod.exists,
    hasProduction_iff_mem_productions, and_assoc]
  simp only [eq_comm]

/-- Whether some rule has an empty alternative. -/
def Grammar.HasEmptyProduction (g : Grammar) : Prop :=
  ∃ name p, g.HasProduction name p ∧ p.isEmpty = true

lemma Grammar.isEmpty_eq_false_of_hasProduction (hempty : ¬g.HasEmptyProduction)
    (hp : g.HasProduction name p) : p.isEmpty = false :=
  Bool.eq_false_iff.mpr fun h => hempty ⟨name, p, hp, h⟩

lemma Grammar.isEmpty_empties :
    g.reductionRules.empties.isEmpty = true ↔ ¬g.HasEmptyProduction := by
  rw [List.isEmpty_iff, List.eq_nil_iff_forall_not_mem]
  constructor
  · rintro hnone ⟨name, p, hp, hempty⟩
    exact hnone ⟨name, p, []⟩ (mem_empties.mpr ⟨name, p, hp, hempty, rfl⟩)
  · intro hnone pattern hpattern
    obtain ⟨name, p, hp, hempty, -⟩ := mem_empties.mp hpattern
    exact hnone ⟨name, p, hp, hempty⟩

lemma Production.runs_of_isEmpty (h : p.isEmpty = true) : p.runs = [] :=
  List.isEmpty_iff.mp h

lemma Production.symbols_char_of_isEmpty (h : p.isEmpty = true) : p.symbols .char = [] := by
  rw [Production.symbols_char, p.runs_of_isEmpty h, Form.divide_nil]

/-- Runs are nonempty texts, so only the empty form has no characters. -/
lemma Form.eq_nil_of_divide (hform : ∀ symbol ∈ form, symbol.IsToken .run)
    (h : Form.divide form = []) : form = [] := by
  cases form with
  | nil => rfl
  | cons symbol rest =>
    cases symbol with
    | nonterminal name => simp at h
    | terminal text =>
      obtain ⟨hne, -⟩ := hform (.terminal text) List.mem_cons_self
      simp [hne] at h

lemma Production.symbols_char_ne_nil (h : p.isEmpty = false) : p.symbols .char ≠ [] := by
  intro hchars
  have hruns := Form.eq_nil_of_divide (fun _ hmem => isToken_of_scan p.scan_text hmem) hchars
  simp [Production.isEmpty, hruns] at h

/-! ### Occurrences -/

lemma Form.mem_occurrencesFrom_cons {pattern : Form} {symbol : Symbol} {start position : Nat} :
    start ∈ Form.occurrencesFrom pattern position (symbol :: form) ↔
      (start = position ∧ pattern <+: symbol :: form) ∨
        start ∈ Form.occurrencesFrom pattern (position + 1) form := by
  rw [occurrencesFrom]
  split_ifs with hstarts
  · rw [List.isPrefixOf_iff_prefix] at hstarts
    simp [hstarts]
  · rw [List.isPrefixOf_iff_prefix] at hstarts
    simp [hstarts]

/-- Every occurrence of a pattern is found. -/
lemma Form.mem_occurrencesFrom {pattern : Form} (hpattern : pattern ≠ []) {start position : Nat} :
    start ∈ Form.occurrencesFrom pattern position form ↔
      ∃ before after, form = before ++ pattern ++ after ∧ start = position + before.length := by
  induction form generalizing position with
  | nil => simp [occurrencesFrom, hpattern]
  | cons symbol rest ih =>
    rw [Form.mem_occurrencesFrom_cons, ih]
    constructor
    · rintro (⟨rfl, after, hafter⟩ | ⟨before, after, rfl, rfl⟩)
      · exact ⟨[], after, hafter.symm, rfl⟩
      · exact ⟨symbol :: before, after, rfl, by rw [List.length_cons]; omega⟩
    · rintro ⟨before, after, hform, rfl⟩
      cases before with
      | nil => exact .inl ⟨rfl, after, hform.symm⟩
      | cons first before =>
        obtain ⟨rfl, rfl⟩ : symbol = first ∧ rest = before ++ pattern ++ after := by
          simpa using hform
        exact .inr ⟨before, after, rfl, by rw [List.length_cons]; omega⟩

/-! ### Reductions -/

/-- A reduction that the search makes: by a nonempty production wherever it occurs, or by an empty
one in the empty form. -/
inductive Grammar.ReducesInSearch (g : Grammar) : Form → Form → Prop where
  | occurrence (before after : Form) {name : String} {p : Production} (hp : g.HasProduction name p)
      (hempty : p.isEmpty = false) :
      ReducesInSearch g (before ++ p.symbols .char ++ after) (before ++ .nonterminal name :: after)
  | empty {name : String} {p : Production} (hp : g.HasProduction name p)
      (hempty : p.isEmpty = true) : ReducesInSearch g [] [.nonterminal name]

/-- A reduction by any production, wherever it occurs. -/
inductive Grammar.Reduces (g : Grammar) : Form → Form → Prop where
  | intro (before after : Form) {name : String} {p : Production} (hp : g.HasProduction name p) :
      Reduces g (before ++ p.symbols .char ++ after) (before ++ .nonterminal name :: after)

lemma Grammar.Reduces.rewrites (h : g.Reduces form next) : g.Rewrites .char next form := by
  cases h with
  | intro before after hp => exact .intro before after hp

lemma Grammar.Rewrites.reduces (h : g.Rewrites .char next form) : g.Reduces form next := by
  cases h with
  | intro before after hp => exact .intro before after hp

/-- A derivation read backwards is a sequence of reductions. -/
lemma Grammar.Derives.reduces (h : g.Derives .char next form) :
    Relation.ReflTransGen g.Reduces form next :=
  Relation.ReflTransGen.mono (fun _ _ hstep => Rewrites.reduces hstep) _ _
    (Relation.reflTransGen_swap.mpr h)

lemma Grammar.derives_of_reduces (h : Relation.ReflTransGen g.Reduces form next) :
    g.Derives .char next form :=
  Relation.ReflTransGen.mono (fun _ _ hstep => Reduces.rewrites hstep) _ _
    (Relation.reflTransGen_swap.mpr h)

lemma Grammar.ReducesInSearch.reduces (h : g.ReducesInSearch form next) : g.Reduces form next := by
  cases h with
  | occurrence before after hp hempty => exact .intro before after hp
  | @empty name p hp hempty =>
    have hreduces : g.Reduces ([] ++ p.symbols .char ++ []) ([] ++ .nonterminal name :: []) :=
      .intro [] [] hp
    rwa [p.symbols_char_of_isEmpty hempty] at hreduces

/-- Without empty productions the search makes every reduction. -/
lemma Grammar.Reduces.inSearch (hempty : ¬g.HasEmptyProduction) (h : g.Reduces form next) :
    g.ReducesInSearch form next := by
  cases h with
  | intro before after hp =>
    exact .occurrence before after hp (isEmpty_eq_false_of_hasProduction hempty hp)

lemma Reduction.apply_occurrence (before symbols after : Form) (name : String) (p : Production) :
    Reduction.apply (before ++ symbols ++ after)
      ⟨name, p, ⟨before.length, before.length + symbols.length⟩⟩ =
        before ++ .nonterminal name :: after := by
  have hstop : before.length + symbols.length = (before ++ symbols).length := by simp
  rw [Reduction.apply, hstop, List.drop_left, List.append_assoc, List.take_left]

lemma Pattern.mem_reductions {pattern : Pattern} (hpattern : pattern.symbols ≠ [])
    {r : Reduction} :
    r ∈ pattern.reductions form ↔
      ∃ before after, form = before ++ pattern.symbols ++ after ∧
        r = ⟨pattern.nonterminal, pattern.production,
          ⟨before.length, before.length + pattern.symbols.length⟩⟩ := by
  simp only [reductions, List.mem_map, Form.mem_occurrencesFrom hpattern, Nat.zero_add]
  constructor
  · rintro ⟨start, ⟨before, after, rfl, rfl⟩, rfl⟩
    exact ⟨before, after, rfl, rfl⟩
  · rintro ⟨before, after, rfl, rfl⟩
    exact ⟨before.length, ⟨before, after, rfl, rfl⟩, rfl⟩

/-- The reductions that a form offers: every occurrence of a nonempty production and, if the form is
empty, every empty production. -/
inductive Grammar.Offers (g : Grammar) : Form → Reduction → Prop where
  | occurrence (before after : Form) {name : String} {p : Production} (hp : g.HasProduction name p)
      (hempty : p.isEmpty = false) :
      Offers g (before ++ p.symbols .char ++ after)
        ⟨name, p, ⟨before.length, before.length + (p.symbols .char).length⟩⟩
  | empty {name : String} {p : Production} (hp : g.HasProduction name p)
      (hempty : p.isEmpty = true) : Offers g [] ⟨name, p, ⟨0, 0⟩⟩

theorem Grammar.mem_reductions {r : Reduction} :
    r ∈ g.reductionRules.reductions form ↔ g.Offers form r := by
  rw [ReductionRules.reductions]
  constructor
  · intro hr
    split_ifs at hr with hform
    · obtain ⟨pattern, hpattern, rfl⟩ := List.mem_map.mp hr
      obtain ⟨name, p, hp, hempty, rfl⟩ := mem_empties.mp hpattern
      rw [List.isEmpty_iff.mp hform]
      exact .empty hp hempty
    · obtain ⟨pattern, hpattern, hr⟩ := List.mem_flatMap.mp hr
      obtain ⟨name, p, hp, hempty, rfl⟩ := mem_patterns.mp hpattern
      obtain ⟨before, after, rfl, rfl⟩ :=
        (Pattern.mem_reductions (p.symbols_char_ne_nil hempty)).mp hr
      exact .occurrence before after hp hempty
  · intro h
    cases h with
    | @occurrence before after name p hp hempty =>
      have hsymbols := p.symbols_char_ne_nil hempty
      have hform : (before ++ p.symbols .char ++ after).isEmpty = false := by simp [hsymbols]
      rw [hform, if_neg Bool.false_ne_true, List.mem_flatMap]
      exact ⟨⟨name, p, p.symbols .char⟩, mem_patterns.mpr ⟨name, p, hp, hempty, rfl⟩,
        (Pattern.mem_reductions hsymbols).mpr ⟨before, after, rfl, rfl⟩⟩
    | @empty name p hp hempty =>
      have hnil : List.isEmpty ([] : Form) = true := rfl
      rw [if_pos hnil, List.mem_map]
      exact ⟨⟨name, p, []⟩, mem_empties.mpr ⟨name, p, hp, hempty, rfl⟩, rfl⟩

/-- In either case the span of the reduction holds the symbols of its production. -/
lemma Grammar.Offers.exists_occurrence {r : Reduction} (h : g.Offers form r) :
    g.HasProduction r.nonterminal r.production ∧
      ∃ before after, form = before ++ r.production.symbols .char ++ after ∧
        r.span = ⟨before.length, before.length + (r.production.symbols .char).length⟩ := by
  cases h with
  | occurrence before after hp hempty => exact ⟨hp, before, after, rfl, rfl⟩
  | empty hp hempty =>
    refine ⟨hp, [], [], ?_, ?_⟩ <;> simp [Production.symbols_char_of_isEmpty hempty]

/-- The reductions that are found in a form are those that the search makes. -/
theorem Grammar.reducesInSearch_iff :
    g.ReducesInSearch form next ↔
      ∃ r ∈ g.reductionRules.reductions form, Reduction.apply form r = next := by
  constructor
  · intro h
    cases h with
    | occurrence before after hp hempty =>
      exact ⟨_, mem_reductions.mpr (.occurrence before after hp hempty),
        Reduction.apply_occurrence ..⟩
    | empty hp hempty => exact ⟨_, mem_reductions.mpr (.empty hp hempty), rfl⟩
  · rintro ⟨r, hr, rfl⟩
    cases mem_reductions.mp hr with
    | occurrence before after hp hempty =>
      rw [Reduction.apply_occurrence]
      exact .occurrence before after hp hempty
    | empty hp hempty => exact .empty hp hempty

end GrammarTrace
