import Mathlib.Logic.Relation
import Mathlib.Tactic.Common
import GrammarTrace.Grammar

/-!
# Derivations of a grammar

One form derives another if productions are put in the place of nonterminals, wherever they stand
or always at the leftmost one. A grammar generates an input if its start symbol derives terminal
symbols that spell it. The granularity of the productions does not matter for that
(`Grammar.generates_of_derives_char`).
-/

namespace GrammarTrace

/-! ### Terminal forms -/

/-- Whether a form has no nonterminals. -/
def Form.IsTerminal (form : Form) : Prop := ∀ symbol ∈ form, symbol.isNonterminal = false

@[simp] lemma Form.isTerminal_nil : Form.IsTerminal [] := by simp [Form.IsTerminal]

@[simp] lemma Form.isTerminal_cons_terminal (text : String) (form : Form) :
    Form.IsTerminal (.terminal text :: form) ↔ form.IsTerminal := by
  simp [Form.IsTerminal, Symbol.isNonterminal]

@[simp] lemma Form.not_isTerminal_cons_nonterminal (name : String) (form : Form) :
    ¬Form.IsTerminal (.nonterminal name :: form) := by
  simp [Form.IsTerminal, Symbol.isNonterminal]

@[simp] lemma Form.isTerminal_append (left right : Form) :
    Form.IsTerminal (left ++ right) ↔ left.IsTerminal ∧ right.IsTerminal := by
  simp [Form.IsTerminal, or_imp, forall_and]

/-! ### Derivations -/

/-- Whether a production is an alternative of the rule of a nonterminal. -/
def Grammar.HasProduction (g : Grammar) (name : String) (p : Production) : Prop :=
  ∃ alternatives, g.alternatives? name = some alternatives ∧ p ∈ alternatives

/-- One step of a derivation puts the symbols of a production in the place of its nonterminal. -/
inductive Grammar.Rewrites (g : Grammar) (granularity : Granularity) : Form → Form → Prop where
  | intro (before after : Form) {name : String} {p : Production} (hp : g.HasProduction name p) :
      Rewrites g granularity (before ++ .nonterminal name :: after)
        (before ++ p.symbols granularity ++ after)

/-- One step of a leftmost derivation. Only terminals stand before the nonterminal. -/
inductive Grammar.RewritesLeftmost (g : Grammar) (granularity : Granularity) :
    Form → Form → Prop where
  | intro {before : Form} (after : Form) {name : String} {p : Production}
      (hbefore : before.IsTerminal) (hp : g.HasProduction name p) :
      RewritesLeftmost g granularity (before ++ .nonterminal name :: after)
        (before ++ p.symbols granularity ++ after)

/-- Whether one form derives another. -/
def Grammar.Derives (g : Grammar) (granularity : Granularity) : Form → Form → Prop :=
  Relation.ReflTransGen (g.Rewrites granularity)

/-- Whether one form derives another by replacing the leftmost nonterminal at every step. -/
def Grammar.DerivesLeftmost (g : Grammar) (granularity : Granularity) : Form → Form → Prop :=
  Relation.ReflTransGen (g.RewritesLeftmost granularity)

/-- Whether the start symbol derives an input. -/
def Grammar.Generates (g : Grammar) (input : String) : Prop :=
  ∃ form : Form, g.Derives .run [g.startSymbol] form ∧ form.IsTerminal ∧ form.text = input

/-- The words in which as many `b` follow as `a` precede. -/
def Grammar.pairs : Grammar := .ofRules (.ofList
  [("<S>", [⟨"a<S>b", [.terminal "a", .nonterminal "<S>", .terminal "b"], by decide +kernel⟩,
    ⟨"", [], by decide +kernel⟩])])

/-- Sums of binary digits, which are a lexical class. -/
def Grammar.sums : Grammar := .ofRules (.ofList
  [("<Sum>",
    [⟨"<Bit>+<Sum>", [.nonterminal "<Bit>", .terminal "+", .nonterminal "<Sum>"],
      by decide +kernel⟩,
    ⟨"<Bit>", [.nonterminal "<Bit>"], by decide +kernel⟩]),
  ("<Bit>",
    [⟨"0", [.terminal "0"], by decide +kernel⟩, ⟨"1", [.terminal "1"], by decide +kernel⟩])])

/-- Binary numbers with a sign that may be missing. -/
def Grammar.signed : Grammar := .ofRules (.ofList
  [("<Number>", [⟨"<Sign><Digits>", [.nonterminal "<Sign>", .nonterminal "<Digits>"],
    by decide +kernel⟩]),
  ("<Sign>", [⟨"-", [.terminal "-"], by decide +kernel⟩, ⟨"", [], by decide +kernel⟩]),
  ("<Digits>", [⟨"0<Digits>", [.terminal "0", .nonterminal "<Digits>"], by decide +kernel⟩,
    ⟨"1<Digits>", [.terminal "1", .nonterminal "<Digits>"], by decide +kernel⟩,
    ⟨"0", [.terminal "0"], by decide +kernel⟩, ⟨"1", [.terminal "1"], by decide +kernel⟩])])

variable {g : Grammar} {granularity : Granularity} {form next : Form} {name : String}

lemma Grammar.RewritesLeftmost.rewrites (h : g.RewritesLeftmost granularity form next) :
    g.Rewrites granularity form next := by
  cases h with
  | intro after hbefore hp => exact .intro _ after hp

lemma Grammar.DerivesLeftmost.derives (h : g.DerivesLeftmost granularity form next) :
    g.Derives granularity form next :=
  Relation.ReflTransGen.mono (fun _ _ hstep => RewritesLeftmost.rewrites hstep) _ _ h

/-- What has an alternative has a rule. -/
lemma Grammar.HasProduction.mem_names {p : Production} (h : g.HasProduction name p) :
    name ∈ g.rules.names := by
  obtain ⟨alternatives, halternatives, -⟩ := h
  exact List.mem_map.mpr ⟨_, Table.get?_eq_some_iff.mp halternatives, rfl⟩

lemma Grammar.HasProduction.rewrites {p : Production} (hp : g.HasProduction name p) :
    g.Rewrites granularity [.nonterminal name] (p.symbols granularity) := by
  have hstep : g.Rewrites granularity ([] ++ .nonterminal name :: [])
      ([] ++ p.symbols granularity ++ []) := .intro [] [] hp
  rwa [List.append_nil, List.nil_append, List.nil_append] at hstep

lemma Grammar.Rewrites.context (h : g.Rewrites granularity form next)
    (left right : Form) : g.Rewrites granularity (left ++ form ++ right) (left ++ next ++ right) := by
  cases h with
  | @intro before after name p hp =>
    have hstep : g.Rewrites granularity (left ++ before ++ .nonterminal name :: (after ++ right))
        (left ++ before ++ p.symbols granularity ++ (after ++ right)) := .intro _ _ hp
    simpa only [List.append_assoc, List.cons_append] using hstep

/-- A derivation goes on in the same way between other symbols. -/
lemma Grammar.Derives.context (h : g.Derives granularity form next)
    (left right : Form) : g.Derives granularity (left ++ form ++ right) (left ++ next ++ right) :=
  Relation.ReflTransGen.lift (left ++ · ++ right) (fun _ _ hstep => Rewrites.context hstep left right)
    form next h

/-! ### Granularities -/

/-- A form with its terminals divided into characters. -/
def Form.divide (form : Form) : Form := form.flatMap Production.divideSymbol

@[simp] lemma Form.divide_nil : Form.divide [] = [] := rfl

@[simp] lemma Form.divide_cons_terminal (text : String) (form : Form) :
    Form.divide (.terminal text :: form) =
      text.toList.map (fun c => .terminal (String.singleton c)) ++ form.divide := rfl

@[simp] lemma Form.divide_cons_nonterminal (name : String) (form : Form) :
    Form.divide (.nonterminal name :: form) = .nonterminal name :: form.divide := rfl

@[simp] lemma Form.divide_append (left right : Form) :
    Form.divide (left ++ right) = left.divide ++ right.divide := by
  simp [Form.divide]

lemma Production.symbols_char (p : Production) : p.symbols .char = Form.divide p.runs := rfl

lemma Form.text_map_singleton (chars : List Char) :
    Form.text (chars.map fun c => .terminal (String.singleton c)) = String.ofList chars := by
  induction chars with
  | nil => simp
  | cons c rest ih =>
    rw [List.map_cons, Form.text_cons, ih, Symbol.text_terminal, ← String.toList_inj]
    simp

lemma Form.isTerminal_map_singleton (chars : List Char) :
    Form.IsTerminal (chars.map fun c => .terminal (String.singleton c)) := by
  simp [Form.IsTerminal, Symbol.isNonterminal]

@[simp] lemma Form.text_divide (form : Form) : form.divide.text = form.text := by
  induction form with
  | nil => rfl
  | cons symbol rest ih =>
    cases symbol with
    | terminal text => simp [ih, Form.text_map_singleton]
    | nonterminal name => simp [ih]

@[simp] lemma Form.isTerminal_divide (form : Form) : form.divide.IsTerminal ↔ form.IsTerminal := by
  induction form with
  | nil => rfl
  | cons symbol rest ih =>
    cases symbol with
    | terminal text => simp [ih, Form.isTerminal_map_singleton]
    | nonterminal name => simp

/-- What spells a text character by character does not depend on how it was divided before. -/
lemma Form.divide_of_isTerminal {form : Form} (h : form.IsTerminal) :
    form.divide = form.text.toList.map fun c => .terminal (String.singleton c) := by
  induction form with
  | nil => simp
  | cons symbol rest ih =>
    cases symbol with
    | nonterminal name => simp at h
    | terminal text =>
      rw [Form.isTerminal_cons_terminal] at h
      rw [Form.divide_cons_terminal, ih h, Form.text_cons, Symbol.text_terminal,
        String.toList_append, List.map_append]

/-- A nonterminal of a divided form stands in the form itself. -/
lemma Form.exists_of_divide_eq {before after : Form}
    (h : Form.divide form = before ++ .nonterminal name :: after) :
    ∃ left right : Form, form = left ++ .nonterminal name :: right ∧ Form.divide left = before ∧
      Form.divide right = after := by
  induction form generalizing before with
  | nil => simp at h
  | cons symbol rest ih =>
    cases symbol with
    | nonterminal other =>
      cases before with
      | nil =>
        obtain ⟨rfl, rfl⟩ : other = name ∧ Form.divide rest = after := by simpa using h
        exact ⟨[], rest, rfl, rfl, rfl⟩
      | cons first before =>
        obtain ⟨rfl, hrest⟩ : .nonterminal other = first ∧
            Form.divide rest = before ++ .nonterminal name :: after := by simpa using h
        obtain ⟨left, right, rfl, rfl, rfl⟩ := ih hrest
        exact ⟨.nonterminal other :: left, right, rfl, rfl, rfl⟩
    | terminal text =>
      rw [Form.divide_cons_terminal, List.append_eq_append_iff] at h
      rcases h with ⟨more, rfl, hrest⟩ | ⟨more, hchars, hrest⟩
      · obtain ⟨left, right, rfl, rfl, rfl⟩ := ih hrest
        exact ⟨.terminal text :: left, right, rfl, rfl, rfl⟩
      · cases more with
        | nil =>
          have hrest' : Form.divide rest = [] ++ .nonterminal name :: after := hrest.symm
          obtain ⟨left, right, rfl, hleft, rfl⟩ := ih hrest'
          refine ⟨.terminal text :: left, right, rfl, ?_, rfl⟩
          rw [Form.divide_cons_terminal, hleft, hchars, List.append_nil]
          simp
        | cons first more =>
          obtain ⟨rfl, -⟩ := List.cons.inj hrest
          -- a character would be a nonterminal
          have hmem : Symbol.nonterminal name ∈
              text.toList.map (fun c => Symbol.terminal (String.singleton c)) := by simp [hchars]
          simp at hmem

lemma Grammar.Rewrites.exists_run (h : g.Rewrites .char form.divide next) :
    ∃ coarse : Form, next = coarse.divide ∧ g.Rewrites .run form coarse := by
  generalize hdivided : form.divide = divided at h
  cases h with
  | @intro before after name p hp =>
    obtain ⟨left, right, rfl, rfl, rfl⟩ := Form.exists_of_divide_eq hdivided
    refine ⟨left ++ p.runs ++ right, ?_, .intro left right hp⟩
    rw [Form.divide_append, Form.divide_append, Production.symbols_char]

lemma Grammar.Derives.exists_run (h : g.Derives .char form.divide next) :
    ∃ coarse : Form, next = coarse.divide ∧ g.Derives .run form coarse := by
  induction h with
  | refl => exact ⟨form, rfl, .refl⟩
  | tail _ hstep ih =>
    obtain ⟨middle, rfl, hmiddle⟩ := ih
    obtain ⟨coarse, rfl, hcoarse⟩ := hstep.exists_run
    exact ⟨coarse, rfl, hmiddle.tail hcoarse⟩

lemma Grammar.Rewrites.divide (h : g.Rewrites .run form next) :
    g.Rewrites .char form.divide next.divide := by
  cases h with
  | @intro before after name p hp =>
    rw [Form.divide_append, Form.divide_cons_nonterminal, Form.divide_append, Form.divide_append]
    exact .intro before.divide after.divide hp

lemma Grammar.Derives.divide (h : g.Derives .run form next) :
    g.Derives .char form.divide next.divide :=
  Relation.ReflTransGen.lift Form.divide (fun _ _ hstep => Rewrites.divide hstep) form next h

/-- A text that is derived character by character is derived by runs. -/
lemma Grammar.Derives.exists_run_of_isTerminal (h : g.Derives .char [.nonterminal name] form)
    (hform : form.IsTerminal) : ∃ coarse : Form, g.Derives .run [.nonterminal name] coarse ∧
      coarse.IsTerminal ∧ coarse.text = form.text := by
  have hstart : g.Derives .char (Form.divide [.nonterminal name]) form := h
  obtain ⟨coarse, rfl, hcoarse⟩ := hstart.exists_run
  exact ⟨coarse, hcoarse, (Form.isTerminal_divide coarse).mp hform, (Form.text_divide coarse).symm⟩

/-- An input that is derived character by character is generated. -/
theorem Grammar.generates_of_derives_char (h : g.Derives .char [g.startSymbol] form)
    (hform : form.IsTerminal) : g.Generates form.text :=
  h.exists_run_of_isTerminal hform

end GrammarTrace
