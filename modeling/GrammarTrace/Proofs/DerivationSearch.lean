import Mathlib.Data.List.Basic
import GrammarTrace.Proofs.Derivability
import GrammarTrace.Proofs.Search.Exhaustion
import GrammarTrace.Proofs.Search.Soundness
import GrammarTrace.Search.Derivation

/-!
# The search for a leftmost derivation

Every step of the search shows a leftmost derivation of what has been read and of the form that is
left. A search that gives up has come past every leftmost derivation, so that the input has none of
any kind.
-/

namespace GrammarTrace

variable {g : Grammar} {d next : Derivation} {input : String}

/-! ### What is found in front of a form -/

/-- What the symbol in front of a form lets the search do. -/
inductive Derivation.Finds (g : Grammar) : Derivation → Prospect Derivation Production → Prop where
  | goal : Finds g ⟨[], []⟩ (.goal [])
  | leftover (c : Char) (unread : List Char) :
      Finds g ⟨[], c :: unread⟩ (.deadEnd (.leftoverInput (String.ofList (c :: unread))))
  | undefined {name : String} (rest : Form) (unread : List Char)
      (h : g.alternatives? name = none) :
      Finds g ⟨.nonterminal name :: rest, unread⟩ (.breakdown (.undefinedNonterminal name))
  | barren {name : String} (rest : Form) (unread : List Char)
      (h : g.alternatives? name = some []) :
      Finds g ⟨.nonterminal name :: rest, unread⟩ (.deadEnd .alternativesExhausted)
  | choice {name : String} {first : Production} {others : List Production} (rest : Form)
      (unread : List Char) (h : g.alternatives? name = some (first :: others)) :
      Finds g ⟨.nonterminal name :: rest, unread⟩ (.choice first others)
  | consume (text : String) (rest : Form) (unread : List Char) :
      Finds g ⟨.terminal text :: rest, text.toList ++ unread⟩
        (.forced (.consume text) ⟨rest, unread⟩)
  | refusal {text : String} {unread : List Char} (rest : Form) (h : ¬text.toList <+: unread) :
      Finds g ⟨.terminal text :: rest, unread⟩ (.deadEnd (Derivation.refusal text unread))

lemma Derivation.finds_prospect : d.Finds g (g.derivations.prospect d) := by
  change d.Finds g (d.prospect g)
  obtain ⟨form, unread⟩ := d
  cases form with
  | nil =>
    cases unread with
    | nil => exact .goal
    | cons c unread => exact .leftover c unread
  | cons symbol rest =>
    cases symbol with
    | nonterminal name =>
      rw [prospect]
      split
      · next h => exact .undefined rest unread h
      · next h => exact .barren rest unread h
      · next h => exact .choice rest unread h
    | terminal text =>
      rw [prospect]
      split
      · next later h =>
        rw [← List.isPrefixOf?_eq_some_iff_append_eq.mp h]
        exact .consume text rest later
      · next h =>
        refine .refusal rest ?_
        rintro ⟨later, hlater⟩
        rw [List.isPrefixOf?_eq_some_iff_append_eq.mpr hlater] at h
        cases h

lemma Derivation.finds_of_eq {prospect : Prospect Derivation Production}
    (h : g.derivations.prospect d = prospect) : d.Finds g prospect :=
  h ▸ finds_prospect

lemma Derivation.prospect_terminal {text : String} {rest : Form} {unread : List Char} :
    g.derivations.prospect ⟨.terminal text :: rest, text.toList ++ unread⟩ =
      .forced (.consume text) ⟨rest, unread⟩ := by
  have hstarts : text.toList.isPrefixOf? (text.toList ++ unread) = some unread :=
    List.isPrefixOf?_eq_some_iff_append_eq.mpr rfl
  simp [Grammar.derivations, prospect, hstarts]

lemma Derivation.prospect_nonterminal {name : String} {first : Production}
    {others : List Production} {rest : Form} {unread : List Char}
    (h : g.alternatives? name = some (first :: others)) :
    g.derivations.prospect ⟨.nonterminal name :: rest, unread⟩ = .choice first others := by
  simp [Grammar.derivations, prospect, h]

/-! ### Soundness -/

/-- Whether what has been read of an input, followed by the form, has a leftmost derivation. -/
def Grammar.HasRead (g : Grammar) (input : String) (d : Derivation) : Prop :=
  ∃ read : Form, read.IsTerminal ∧ input = read.text ++ String.ofList d.unread ∧
    g.DerivesLeftmost .run [g.startSymbol] (read ++ d.form)

lemma Grammar.hasRead_derivationOf : g.HasRead input (g.derivationOf input) :=
  ⟨[], by simp, by simp [derivationOf], .refl⟩

lemma Grammar.preserves_hasRead : g.derivations.Preserves (g.HasRead input) where
  forced := by
    rintro d action next ⟨read, hread, hinput, hderives⟩ h
    cases Derivation.finds_of_eq h with
    | consume text rest unread =>
      refine ⟨read ++ [.terminal text], by simp [hread], ?_, ?_⟩
      · rw [hinput, String.ofList_append, String.ofList_toList, Form.text_append,
          String.append_assoc]
        simp
      · rwa [List.append_assoc, List.singleton_append]
  choice := by
    rintro d first others p ⟨read, hread, hinput, hderives⟩ h hp
    cases Derivation.finds_of_eq h with
    | @choice name _ _ rest unread halternatives =>
      have hstep : g.RewritesLeftmost .run (read ++ .nonterminal name :: rest)
          (read ++ p.runs ++ rest) := .intro _ hread ⟨_, halternatives, hp⟩
      rw [List.append_assoc] at hstep
      exact ⟨read, hread, hinput, hderives.tail hstep⟩

lemma Grammar.marksGoals_derivations : g.derivations.MarksGoals where
  step _ _ := rfl
  giveUp _ _ := by simp [derivations]

/-- Every step shows a leftmost derivation of what has been read and of its form. An input that is
accepted is generated. -/
theorem Grammar.searchDerivation_leftmost (g : Grammar) (input : String) (limit : Nat) :
    (∀ step ∈ (g.searchDerivation input limit).toList,
      ∃ (read : Form) (unread : String), step.remaining = some unread ∧ read.IsTerminal ∧
        input = read.text ++ unread ∧
        g.DerivesLeftmost .run [g.startSymbol] (read ++ step.form)) ∧
    ((g.searchDerivation input limit).verdict = .accepted → g.Generates input) := by
  have hsound : g.derivations.Sound (g.HasRead input) ⟨g.derivationOf input, [], .empty⟩ :=
    SearchSpace.sound_of_start g.hasRead_derivationOf
  constructor
  · intro step hstep
    rcases SearchSpace.mem_run g.preserves_hasRead hsound hstep with hempty | hrecords
    · simp at hempty
    · obtain ⟨d, ⟨read, hread, hinput, hderives⟩, action, hform, hremaining⟩ :=
        hrecords.exists_shows g.preserves_hasRead fun _ reason => ⟨reason, rfl, rfl⟩
      refine ⟨read, String.ofList d.unread, hremaining, hread, hinput, ?_⟩
      rw [hform]
      exact hderives
  · intro haccepted
    obtain ⟨d, alternatives, ⟨read, hread, hinput, hderives⟩, hgoal⟩ :=
      SearchSpace.exists_goal_of_accepted g.marksGoals_derivations g.preserves_hasRead hsound
        haccepted
    cases Derivation.finds_of_eq hgoal with
    | goal =>
      rw [List.append_nil] at hderives
      exact ⟨read, hderives.derives, hread, by simp [hinput]⟩

theorem Grammar.pairs_generates : Grammar.pairs.Generates "aabb" :=
  (Grammar.pairs.searchDerivation_leftmost "aabb" 100).2 (by decide +kernel)

/-! ### Exhaustion -/

lemma Grammar.solvable_terminal {text : String} {rest : Form} {unread : List Char}
    (h : g.derivations.Solvable ⟨rest, unread⟩) :
    g.derivations.Solvable ⟨.terminal text :: rest, text.toList ++ unread⟩ :=
  SearchSpace.solvable_of_forced Derivation.prospect_terminal h

lemma Grammar.solvable_nonterminal {name : String} {p : Production} {rest : Form}
    (hp : g.HasProduction name p) (h : g.derivations.Solvable d) (hform : d.form = p.runs ++ rest) :
    g.derivations.Solvable ⟨.nonterminal name :: rest, d.unread⟩ := by
  obtain ⟨alternatives, halternatives, hmem⟩ := hp
  obtain ⟨first, others, rfl⟩ := List.exists_cons_of_ne_nil (List.ne_nil_of_mem hmem)
  have hexpand : Derivation.expand ⟨.nonterminal name :: rest, d.unread⟩ p = d := by
    rw [Derivation.expand, List.tail_cons, ← hform]
  refine SearchSpace.solvable_of_choice (Derivation.prospect_nonterminal halternatives) hmem ?_
  change g.derivations.Solvable (Derivation.expand _ p)
  rwa [hexpand]

lemma Grammar.solvable_of_isTerminal {form : Form} (hform : form.IsTerminal) :
    g.derivations.Solvable ⟨form, form.text.toList⟩ := by
  induction form with
  | nil =>
    have hprospect : g.derivations.prospect ⟨[], []⟩ = .goal [] := rfl
    exact SearchSpace.solvable_of_goal hprospect
  | cons symbol rest ih =>
    cases symbol with
    | nonterminal name => simp at hform
    | terminal text =>
      rw [Form.isTerminal_cons_terminal] at hform
      rw [Form.text_cons, Symbol.text_terminal, String.toList_append]
      exact solvable_terminal (ih hform)

/-- A way that leads on after a production has been put in the place of a nonterminal leads on
before, with the production taken when the nonterminal comes to the front. -/
lemma Grammar.solvable_of_succeeds {name : String} {p : Production} {before after : Form}
    {path : List Nat} (hp : g.HasProduction name p) (hpath : g.derivations.Succeeds d path)
    (hform : d.form = before ++ p.runs ++ after) :
    g.derivations.Solvable ⟨before ++ .nonterminal name :: after, d.unread⟩ := by
  -- by induction on the way: the symbols before the nonterminal change along it
  induction hpath generalizing before with
  | goal h =>
    cases before with
    | nil => exact solvable_nonterminal hp ⟨_, .goal h⟩ hform
    | cons symbol before =>
      cases Derivation.finds_of_eq h with
      | goal => simp at hform
  | forced h hpath ih =>
    cases before with
    | nil => exact solvable_nonterminal hp ⟨_, .forced h hpath⟩ hform
    | cons symbol before =>
      cases Derivation.finds_of_eq h with
      | consume text rest unread =>
        obtain ⟨rfl, hrest⟩ := List.cons.inj hform
        exact solvable_terminal (ih hrest)
  | @choice d _ _ _ q _ h hq hpath ih =>
    cases before with
    | nil => exact solvable_nonterminal hp ⟨_, .choice h hq hpath⟩ hform
    | cons symbol before =>
      cases Derivation.finds_of_eq h with
      | @choice other _ _ rest unread halternatives =>
        obtain ⟨rfl, hrest⟩ : .nonterminal other = symbol ∧ rest = before ++ p.runs ++ after := by
          simpa using hform
        have hexpanded : (Derivation.expand ⟨.nonterminal other :: rest, unread⟩ q).form =
            q.runs ++ before ++ p.runs ++ after := by
          simp only [Derivation.expand, hrest, List.tail_cons, List.append_assoc]
        have hother : g.HasProduction other q := ⟨_, halternatives, List.mem_of_getElem? hq⟩
        have hsolvable := solvable_nonterminal hother (ih hexpanded) (List.append_assoc ..)
        exact hsolvable

lemma Grammar.Rewrites.solvable {form next : Form} {unread : List Char}
    (h : g.Rewrites .run form next) (hnext : g.derivations.Solvable ⟨next, unread⟩) :
    g.derivations.Solvable ⟨form, unread⟩ := by
  obtain ⟨path, hpath⟩ := hnext
  cases h with
  | intro before after hp => exact solvable_of_succeeds hp hpath rfl

/-- Whatever a form derives, the search has a way to it. -/
lemma Grammar.Derives.solvable {form next : Form} (h : g.Derives .run form next)
    (hnext : next.IsTerminal) : g.derivations.Solvable ⟨form, next.text.toList⟩ := by
  induction h using Relation.ReflTransGen.head_induction_on with
  | refl => exact solvable_of_isTerminal hnext
  | head hstep _ ih => exact hstep.solvable ih

lemma Grammar.Generates.solvable (h : g.Generates input) :
    g.derivations.Solvable (g.derivationOf input) := by
  obtain ⟨form, hderives, hform, rfl⟩ := h
  exact hderives.solvable hform

/-- An input that is rejected is not generated, unless the search was stopped by a nonterminal
without a rule. -/
theorem Grammar.not_generates_of_rejected (g : Grammar) (input : String) (limit : Nat)
    (hrejected : (g.searchDerivation input limit).verdict = .rejected)
    (hdefined : ∀ step name, (g.searchDerivation input limit).last? = some step →
      step.action ≠ .undefinedNonterminal name) : ¬g.Generates input := by
  intro hgenerates
  have hsolvable := hgenerates.solvable
  obtain ⟨last, hreach, hends⟩ :=
    g.derivations.exists_ends limit ⟨g.derivationOf input, [], .empty⟩
  rw [searchDerivation] at hrejected hdefined
  generalize g.derivations.run limit ⟨g.derivationOf input, [], .empty⟩ = trace at *
  cases hends with
  | limit | goal =>
    rw [Trace.verdict_push, Verdict.ofMark_eq_rejected] at hrejected
    cases hrejected
  | breakdown h =>
    generalize last.position = d at h
    cases Derivation.finds_of_eq h with
    | undefined => exact hdefined _ _ (Trace.last?_push ..) rfl
  | deadEnd h hstack => exact hreach.not_solvable h (by simp [hstack]) hsolvable
  | exhausted h hstack hall => exact hreach.not_solvable h hall hsolvable

theorem Grammar.pairs_not_generates :
    (Grammar.pairs.searchDerivation "aab" 100).verdict = .rejected ∧
      (Grammar.pairs.searchDerivation "aab" 100).last?.map Step.action =
        some .alternativesExhausted ∧ ¬Grammar.pairs.Generates "aab" := by
  have hrejected : (Grammar.pairs.searchDerivation "aab" 100).verdict = .rejected := by
    decide +kernel
  have hlast : (Grammar.pairs.searchDerivation "aab" 100).last?.map Step.action =
      some .alternativesExhausted := by decide +kernel
  refine ⟨hrejected, hlast, Grammar.not_generates_of_rejected _ "aab" 100 hrejected ?_⟩
  intro step name hstep haction
  rw [hstep, Option.map_some, haction] at hlast
  cases hlast

end GrammarTrace
