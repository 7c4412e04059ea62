import GrammarTrace.Proofs.Derivability
import GrammarTrace.Proofs.RuleLines
import GrammarTrace.Proofs.UnclosedBrackets

/-!
# The two views of a production

The characters of a production are read off its runs. They are those that its text has when it is
scanned character by character, and the nonterminals stand in both views in the same order. So it
does not matter for the texts that a nonterminal derives how the productions of a grammar are viewed
(`Production.views_agree`).
-/

namespace GrammarTrace

/-- Whether a nonterminal derives a text, with the productions viewed at a granularity. -/
def Grammar.GeneratesFrom (g : Grammar) (granularity : Granularity) (name text : String) : Prop :=
  ∃ form : Form, g.Derives granularity [.nonterminal name] form ∧ form.IsTerminal ∧
    form.text = text

variable {granularity : Granularity} {form : Form} {p : Production} {text : String}

/-! ### Views and scans -/

lemma Granularity.divide_run (stretch : List Char) :
    Form.divide (Granularity.run.divide stretch) = Granularity.char.divide stretch := by
  simp [Granularity.divide]

/-- A division of a text into runs becomes one into characters. -/
lemma Scanned.divide {chars : List Char} (h : Scanned .run chars form) :
    Scanned .char chars form.divide := by
  induction h with
  | nil => exact .nil
  | name hname hafter ih => exact .name hname ih
  | stretch hne hplain hend hafter ih =>
    rw [Form.divide_append, Granularity.divide_run]
    exact .stretch hne hplain hend ih

/-- Scanning the text of a production gives its view at either granularity. -/
lemma Production.scan_text_eq (p : Production) (granularity : Granularity) :
    scan granularity p.text = .ok (p.symbols granularity) := by
  cases granularity with
  | run => exact p.scan_text
  | char => exact (scanned_of_scan p.scan_text).divide.scanAt_eq 0

/-- A text that has no production fails to be scanned at either granularity. -/
lemma Production.map_symbols_ofText (text : String) (granularity : Granularity) :
    (ofText text).map (fun p => p.symbols granularity) = scan granularity text := by
  cases hp : ofText text with
  | ok p =>
    obtain rfl := RuleText.ofText_eq_ok_iff.mp hp
    exact (p.scan_text_eq granularity).symm
  | error e =>
    have hrun : scan .run text = .error e := by
      rw [ofText] at hp
      split at hp
      · cases hp
      · next other hscan => rw [hscan, Except.error.inj hp]
    -- where scanning fails does not depend on the granularity
    exact (scan_eq_error_iff.mpr (scan_eq_error_iff.mp hrun)).symm

/-! ### Empty texts and nonterminals -/

lemma Production.isEmpty_iff : p.isEmpty = true ↔ p.text = "" := by
  have htext := text_of_scan p.scan_text
  constructor
  · intro hempty
    rw [← htext, p.runs_of_isEmpty hempty, Form.text_nil]
  · intro hempty
    have hscan : scan .run "" = .ok p.runs := hempty ▸ p.scan_text
    rw [scan, String.toList_empty, scanAt] at hscan
    rw [isEmpty, ← Except.ok.inj hscan, List.isEmpty_nil]

lemma Form.filter_isNonterminal (form : Form) :
    form.filter Symbol.isNonterminal = form.nonterminals.map .nonterminal := by
  induction form with
  | nil => rfl
  | cons symbol rest ih =>
    cases symbol with
    | terminal text =>
      rw [List.filter_cons_of_neg (by simp [Symbol.isNonterminal]), ih, nonterminals_cons_terminal]
    | nonterminal name =>
      rw [List.filter_cons_of_pos rfl, ih, nonterminals_cons_nonterminal, List.map_cons]

lemma Form.nonterminals_divide (form : Form) : form.divide.nonterminals = form.nonterminals := by
  induction form with
  | nil => rfl
  | cons symbol rest ih =>
    cases symbol with
    | nonterminal name => simp [ih]
    | terminal text =>
      have hnone : nonterminals
          (text.toList.map fun c => Symbol.terminal (String.singleton c)) = [] := by
        simp [nonterminals]
      rw [divide_cons_terminal, nonterminals_append, hnone, List.nil_append, ih,
        nonterminals_cons_terminal]

lemma Production.filter_symbols (p : Production) (granularity : Granularity) :
    (p.symbols granularity).filter Symbol.isNonterminal = p.nonterminals.map .nonterminal := by
  cases granularity with
  | run => exact Form.filter_isNonterminal p.runs
  | char => rw [symbols_char, Form.filter_isNonterminal, Form.nonterminals_divide, nonterminals]

/-! ### Derivations -/

lemma Grammar.generatesFrom_run_iff {g : Grammar} {name : String} :
    g.GeneratesFrom .run name text ↔ g.GeneratesFrom .char name text := by
  constructor
  · rintro ⟨form, hderives, hform, rfl⟩
    exact ⟨form.divide, hderives.divide, (Form.isTerminal_divide form).mpr hform,
      Form.text_divide form⟩
  · rintro ⟨form, hderives, hform, rfl⟩
    exact hderives.exists_run_of_isTerminal hform

/-- Each view of the production of a text is the scan of this text. The production is empty just if
the text is, and both views have its nonterminals in their order. A nonterminal derives the same
texts in both views. -/
theorem Production.views_agree :
    (∀ text granularity,
      (ofText text).map (fun p => p.symbols granularity) = scan granularity text) ∧
    (∀ text p, ofText text = .ok p → (p.isEmpty = true ↔ text = "") ∧
      ∀ granularity, (p.symbols granularity).filter Symbol.isNonterminal =
        p.nonterminals.map .nonterminal) ∧
    ∀ (g : Grammar) (name text : String),
      g.GeneratesFrom .run name text ↔ g.GeneratesFrom .char name text := by
  refine ⟨map_symbols_ofText, ?_, fun _ _ _ => Grammar.generatesFrom_run_iff⟩
  intro text p hp
  obtain rfl := RuleText.ofText_eq_ok_iff.mp hp
  exact ⟨isEmpty_iff, p.filter_symbols⟩

theorem Production.mixed_views_agree :
    ∃ p, ofText "-<A>ü1<B>" = .ok p ∧ (p.isEmpty = true ↔ "-<A>ü1<B>" = "") ∧
      ∀ granularity, (p.symbols granularity).filter Symbol.isNonterminal =
        p.nonterminals.map .nonterminal := by
  let p : Production := ⟨"-<A>ü1<B>",
    [.terminal "-", .nonterminal "<A>", .terminal "ü1", .nonterminal "<B>"], by decide +kernel⟩
  have hp : ofText "-<A>ü1<B>" = .ok p := RuleText.ofText_eq_ok_iff.mpr rfl
  exact ⟨p, hp, views_agree.2.1 _ p hp⟩

end GrammarTrace
