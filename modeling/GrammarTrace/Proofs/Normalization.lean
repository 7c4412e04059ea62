import GrammarTrace.Proofs.Reduction

/-!
# Replacing terminals by their classes

A terminal is replaced by a class only if it is an alternative of the class, so a replacement is a
reduction (`Grammar.rewrites_of_classOf`). Whatever replacements preserve holds for every form that
is recorded while terminals are replaced (`Grammar.normalized_normalize`).
-/

namespace GrammarTrace

variable {g : Grammar} {name text : String} {p : Production} {symbol : Symbol}
  {classes : List (String × List Production)} {I : Form → Prop} {limit : Nat} {trace : Trace}
  {progress : Progress Form Reduction}

/-! ### Classes -/

lemma Grammar.exists_of_classOf (h : classOf? g.lexicalClasses symbol = some name) :
    ∃ text p, symbol = .terminal text ∧ g.HasProduction name p ∧ p.text = text := by
  cases symbol with
  | nonterminal other => cases h
  | terminal text =>
    rw [classOf?, Option.map_eq_some_iff] at h
    obtain ⟨⟨name, alternatives⟩, hfind, rfl⟩ := h
    have hrule := List.mem_of_find?_eq_some hfind
    have hany := List.find?_some hfind
    obtain ⟨p, hp, htext⟩ := List.any_eq_true.mp hany
    refine ⟨text, p, rfl, ⟨alternatives, ?_, hp⟩, beq_iff_eq.mp htext⟩
    exact Table.get?_eq_some_iff.mpr (List.mem_filter.mp hrule).1

/-- Whether a nonterminal is a lexical class with a text as a whole alternative. -/
def Grammar.IsClassOf (g : Grammar) (name text : String) : Prop :=
  g.isLexicalClass name = true ∧ ∃ p, g.HasProduction name p ∧ p.text = text

/-- Whether a nonterminal is the first class in declaration order with a text as a whole
alternative. -/
def Grammar.IsFirstClassOf (g : Grammar) (name text : String) : Prop :=
  g.IsClassOf name text ∧ ∃ earlier later, g.rules.names = earlier ++ name :: later ∧
    ∀ other ∈ earlier, ¬g.IsClassOf other text

lemma Grammar.isClassOf_iff_of_mem {rule : String × List Production} (h : rule ∈ g.rules.entries) :
    g.IsClassOf rule.1 text ↔
      (isClassBody rule.2 && rule.2.any fun p => p.text == text) = true := by
  have hrule : g.alternatives? rule.1 = some rule.2 := Table.get?_eq_some_iff.mpr h
  simp [IsClassOf, isLexicalClass, HasProduction, hrule]

lemma Grammar.classOf_terminal : classOf? g.lexicalClasses (.terminal text) =
    (g.rules.entries.find? fun rule =>
      isClassBody rule.2 && rule.2.any fun p => p.text == text).map Prod.fst := by
  simp only [classOf?, lexicalClasses, List.find?_filter, Bool.decide_and, Bool.decide_eq_true]

lemma Grammar.isFirstClassOf_of_classOf
    (h : classOf? g.lexicalClasses (.terminal text) = some name) : g.IsFirstClassOf name text := by
  rw [classOf_terminal, Option.map_eq_some_iff] at h
  obtain ⟨rule, hfind, rfl⟩ := h
  obtain ⟨hrule, before, after, hentries, hbefore⟩ := List.find?_eq_some_iff_append.mp hfind
  refine ⟨(isClassOf_iff_of_mem (by simp [hentries])).mpr hrule, before.map Prod.fst,
    after.map Prod.fst, by simp [Table.names, hentries], ?_⟩
  intro name hname
  obtain ⟨other, hother, rfl⟩ := List.mem_map.mp hname
  rw [isClassOf_iff_of_mem (by simp [hentries, hother]), Bool.not_eq_true]
  simpa only [Bool.not_eq_true'] using hbefore other hother

lemma Grammar.not_isClassOf_of_classOf (h : classOf? g.lexicalClasses (.terminal text) = none) :
    ¬g.IsClassOf name text := by
  rw [classOf_terminal, Option.map_eq_none_iff, List.find?_eq_none] at h
  intro hclass
  have ⟨_, p, ⟨alternatives, halternatives, _⟩, _⟩ := hclass
  have hmem := Table.get?_eq_some_iff.mp halternatives
  exact h _ hmem ((isClassOf_iff_of_mem hmem).mp hclass)

/-- The symbols of a production are determined by its text. -/
lemma Production.symbols_char_of_plain (hne : p.text ≠ "") (hplain : '<' ∉ p.text.toList) :
    p.symbols .char = p.text.toList.map fun c => .terminal (String.singleton c) := by
  have hruns : p.runs = [.terminal p.text] := by
    have hscan := p.scan_text
    rw [scan_of_plain hne hplain, Granularity.divide, String.ofList_toList] at hscan
    exact (Except.ok.inj hscan).symm
  rw [Production.symbols_char, hruns, Form.divide_cons_terminal, Form.divide_nil, List.append_nil]

/-- Among tokens, replacing a terminal by its class undoes a step of a derivation. -/
lemma Grammar.rewrites_of_classOf {before after : Form} (htoken : symbol.IsToken .char)
    (h : classOf? g.lexicalClasses symbol = some name) :
    g.Rewrites .char (before ++ .nonterminal name :: after) (before ++ symbol :: after) := by
  obtain ⟨text, p, rfl, hp, htext⟩ := exists_of_classOf h
  obtain ⟨hne, hplain, hsingle⟩ := htoken
  obtain ⟨c, rfl⟩ := hsingle rfl
  have hrewrites : g.Rewrites .char (before ++ .nonterminal name :: after)
      (before ++ p.symbols .char ++ after) := .intro before after hp
  rw [← htext] at hne hplain
  rwa [p.symbols_char_of_plain hne hplain, htext, String.toList_singleton, List.map_singleton,
    List.append_assoc, List.singleton_append] at hrewrites

/-! ### Replacements one by one -/

/-- One replacement: the leftmost terminal that has a class gives way to it. -/
inductive Grammar.Replaces (classes : List (String × List Production)) :
    SearchState Form Reduction → SearchState Form Reduction → Prop where
  | intro {before after : Form} {text name : String} {trace : Trace}
      (hbefore : ∀ symbol ∈ before, classOf? classes symbol = none)
      (hclass : classOf? classes (.terminal text) = some name) :
      Replaces classes ⟨before ++ .terminal text :: after, [], trace⟩
        ⟨before ++ .nonterminal name :: after, [], trace.push
          { action := .normalize text name, form := before ++ .nonterminal name :: after }⟩

/-- How replacing terminals ends: no terminal has a class any more, or the limit is reached. -/
inductive Grammar.ReplacesLast (classes : List (String × List Production)) (limit : Nat)
    (s : SearchState Form Reduction) : Progress Form Reduction → Prop where
  | done (h : ∀ symbol ∈ s.position, classOf? classes symbol = none) :
      ReplacesLast classes limit s (.running s)
  | stopped {text : String} (hlimit : limit ≤ s.trace.size) (hmem : .terminal text ∈ s.position) :
      ReplacesLast classes limit s
        (.ended (s.trace.push { action := .stepLimit limit, form := s.position }))

/-- Replacements one after the other, each made before the trace has reached the limit. -/
def Grammar.ReplacesTo (classes : List (String × List Production)) (limit : Nat) :
    SearchState Form Reduction → SearchState Form Reduction → Prop :=
  Relation.ReflTransGen fun s next => s.trace.size < limit ∧ Replaces classes s next

lemma Grammar.exists_replacesLast_normalizeFrom {done rest : Form}
    (hdone : ∀ symbol ∈ done, classOf? classes symbol = none) :
    ∃ last, ReplacesTo classes limit ⟨done.reverse ++ rest, [], trace⟩ last ∧
      ReplacesLast classes limit last (normalizeFrom classes limit done rest trace) := by
  induction rest generalizing done trace with
  | nil =>
    rw [List.append_nil]
    exact ⟨_, .refl, .done (by simpa using hdone)⟩
  | cons symbol rest ih =>
    rw [normalizeFrom]
    cases hclass : classOf? classes symbol with
    | none =>
      have hrest := @ih trace (symbol :: done) (List.forall_mem_cons.mpr ⟨hclass, hdone⟩)
      rwa [List.reverse_cons, List.append_assoc, List.singleton_append] at hrest
    | some name =>
      cases symbol with
      | nonterminal other => cases hclass
      | terminal text =>
        dsimp only
        split_ifs with hlimit
        · rw [List.reverseAux_eq]
          have hmem : .terminal text ∈ done.reverse ++ .terminal text :: rest := by simp
          exact ⟨_, .refl, .stopped hlimit hmem⟩
        · have hreplaces : Replaces classes ⟨done.reverse ++ .terminal text :: rest, [], trace⟩ _ :=
            .intro (fun symbol hmem => hdone symbol (List.mem_reverse.mp hmem)) hclass
          obtain ⟨last, hlast, hends⟩ := @ih
            (trace.push { action := .normalize text name, form := _ })
            (.nonterminal name :: done) (List.forall_mem_cons.mpr ⟨rfl, hdone⟩)
          rw [List.reverse_cons, List.append_assoc, List.singleton_append] at hlast
          rw [Symbol.text_terminal, List.reverseAux_eq]
          exact ⟨last, .head ⟨Nat.not_le.mp hlimit, hreplaces⟩ hlast, hends⟩

/-- Replacing the terminals of an input is a sequence of replacements followed by an end. -/
theorem Grammar.exists_replacesLast (g : Grammar) (limit : Nat) (tokens : Form) :
    ∃ last, ReplacesTo g.lexicalClasses limit
        ⟨tokens, [], Trace.empty.push { action := .start, form := tokens }⟩ last ∧
      ReplacesLast g.lexicalClasses limit last (g.normalize limit tokens) :=
  exists_replacesLast_normalizeFrom (List.forall_mem_nil _)

/-- What is true of every replacement is true of all steps so far, if it is of the earlier ones. -/
lemma Grammar.ReplacesTo.forall_steps {Q : Step → Prop}
    (hQ : ∀ text name form, Q { action := .normalize text name, form })
    {s next : SearchState Form Reduction} (h : ReplacesTo classes limit s next)
    (hs : ∀ step ∈ s.trace.toList, Q step) : ∀ step ∈ next.trace.toList, Q step := by
  induction h with
  | refl => exact hs
  | tail _ hstep ih =>
    cases hstep.2 with
    | @intro before after text name trace =>
      rw [Trace.toList_push, List.forall_mem_append, List.forall_mem_singleton]
      exact ⟨ih, hQ text name _⟩

/-! ### Replacements -/

/-- A property of forms that replacing terminals by their classes preserves. -/
def ClassesPreserve (classes : List (String × List Production)) (I : Form → Prop) : Prop :=
  ∀ ⦃before after : Form⦄ ⦃symbol : Symbol⦄ ⦃name : String⦄, I (before ++ symbol :: after) →
    Grammar.classOf? classes symbol = some name → I (before ++ .nonterminal name :: after)

lemma Grammar.classesPreserve_true : ClassesPreserve g.lexicalClasses fun _ => True :=
  fun _ _ _ _ _ _ => trivial

/-- A step that replaces a terminal by its class and leaves a form with a property. -/
def Step.Normalizes (I : Form → Prop) (step : Step) : Prop :=
  I step.form ∧ ∃ text name, step.action = .normalize text name

/-- What comes of replacing terminals by their classes: steps that do so, and then a search without
choices, or a stop at the limit. -/
inductive Normalized (I : Form → Prop) (limit : Nat) (trace : Trace) :
    Progress Form Reduction → Prop where
  | running {form : Form} {steps : List Step} (hform : I form)
      (hsteps : ∀ step ∈ steps, step.Normalizes I) :
      Normalized I limit trace (.running ⟨form, [], trace.pushAll steps⟩)
  | ended {form : Form} {steps : List Step} (hform : I form)
      (hsteps : ∀ step ∈ steps, step.Normalizes I) :
      Normalized I limit trace
        (.ended ((trace.pushAll steps).push { action := .stepLimit limit, form }))

lemma Normalized.of_push {step : Step} (hstep : step.Normalizes I)
    (h : Normalized I limit (trace.push step) progress) : Normalized I limit trace progress := by
  cases h with
  | @running _ steps hform hsteps =>
    have hcons : ∀ other ∈ step :: steps, other.Normalizes I :=
      List.forall_mem_cons.mpr ⟨hstep, hsteps⟩
    exact .running hform hcons
  | @ended _ steps hform hsteps =>
    have hcons : ∀ other ∈ step :: steps, other.Normalizes I :=
      List.forall_mem_cons.mpr ⟨hstep, hsteps⟩
    exact .ended hform hcons

lemma Normalized.of_replacesTo {s last : SearchState Form Reduction}
    (hI : ClassesPreserve classes I) (hreach : Grammar.ReplacesTo classes limit s last)
    (hends : Grammar.ReplacesLast classes limit last progress) (hform : I s.position)
    (hchoices : s.choices = []) : Normalized I limit s.trace progress := by
  induction hreach using Relation.ReflTransGen.head_induction_on with
  | refl =>
    cases hends with
    | stopped => exact .ended hform (List.forall_mem_nil _)
    | done =>
      obtain ⟨form, choices, trace⟩ := last
      obtain rfl : choices = [] := hchoices
      exact .running hform (List.forall_mem_nil _)
  | head hstep _ ih =>
    cases hstep.2 with
    | intro hbefore hclass =>
      have hnext := hI hform hclass
      exact .of_push ⟨hnext, _, _, rfl⟩ (ih hnext rfl)

/-- Whatever replacements preserve holds for every form that is recorded. -/
theorem Grammar.normalized_normalize {tokens : Form} (hI : ClassesPreserve g.lexicalClasses I)
    (htokens : I tokens) :
    Normalized I limit (Trace.empty.push { action := .start, form := tokens })
      (g.normalize limit tokens) := by
  obtain ⟨last, hreach, hends⟩ := g.exists_replacesLast limit tokens
  exact .of_replacesTo hI hreach hends htokens rfl

end GrammarTrace
