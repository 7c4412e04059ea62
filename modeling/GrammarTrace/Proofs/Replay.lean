import GrammarTrace.Proofs.Backtracking
import GrammarTrace.Proofs.Search.Replay

/-!
# Traces that can be replayed

A trace says by itself how every form in it came about. Each step of a search for a derivation
(`Grammar.DerivationStep`) or for a reduction (`Grammar.ReductionStep`) changes what some step
before it shows in the way that its action and its candidate say, however much the search has gone
back in between.
-/

namespace GrammarTrace

variable {g : Grammar} {input : String} {earlier : List Step} {step : Step}

/-! ### Derivations -/

/-- What a search for a derivation shows of its position. -/
def Derivation.view (d : Derivation) : View := ⟨d.form, some (String.ofList d.unread)⟩

/-- What a derivation of an input begins with. -/
def Grammar.derivationView (g : Grammar) (input : String) : Option View :=
  some ⟨[g.startSymbol], some input⟩

/-- An expansion of the nonterminal in front by a candidate, which reads no input. -/
inductive Grammar.ExpandsInto (g : Grammar) : Candidate → View → View → Prop where
  | intro {name : String} {p : Production} (rest : Form) (unread : Option String)
      (hp : g.HasProduction name p) :
      ExpandsInto g { nonterminal := name, production := p.text }
        ⟨.nonterminal name :: rest, unread⟩ ⟨p.symbols .run ++ rest, unread⟩

/-- A step of a search for a derivation, told from the steps before it. -/
inductive Grammar.DerivationStep (g : Grammar) (input : String) (earlier : List Step)
    (step : Step) : Prop where
  | expand {taken : Candidate} {before : View}
      (haction : step.action = .expand taken.nonterminal taken.production)
      (hselected : step.selected = some taken)
      (hbefore : viewBefore (g.derivationView input) earlier earlier.length = some before)
      (hview : g.ExpandsInto taken before step.view)
  | consume {text unread : String} {rest : Form} (haction : step.action = .consume text)
      (hbefore : viewBefore (g.derivationView input) earlier earlier.length =
        some ⟨.terminal text :: rest, some (text ++ unread)⟩)
      (hview : step.view = ⟨rest, some unread⟩)
  | retry {t : Nat} {taken : Candidate} {before : View}
      (haction : step.action = .retry taken.nonterminal taken.production)
      (hselected : step.selected = some taken) (hto : step.backtrackTo = some t)
      (hbefore : viewBefore (g.derivationView input) earlier t = some before)
      (hview : g.ExpandsInto taken before step.view)
  | abandonment {t : Nat} {name : String} {rest : Form}
      (haction : step.action = .abandonExpansion name) (hto : step.backtrackTo = some t)
      (hbefore : viewBefore (g.derivationView input) earlier t = some step.view)
      (hform : step.form = .nonterminal name :: rest)
  | ending (hending : step.action.isEnding = true)
      (hleft : viewLeft (g.derivationView input) earlier = some step.view)

lemma Derivation.front_nonterminal {name : String} {rest : Form} {unread : List Char} :
    front ⟨.nonterminal name :: rest, unread⟩ = name := by
  simp [front]

lemma Derivation.view_append {form : Form} {text : String} {unread : List Char} :
    view ⟨form, text.toList ++ unread⟩ = ⟨form, some (text ++ String.ofList unread)⟩ := by
  simp [view]

lemma Grammar.expandsInto_of_choice {d : Derivation} {first p : Production}
    {others : List Production} (h : g.derivations.prospect d = .choice first others)
    (hp : p ∈ first :: others) :
    g.ExpandsInto (g.derivations.candidate d p) d.view (g.derivations.take d p).view := by
  cases Derivation.finds_of_eq h with
  | @choice name _ _ rest unread halternatives =>
    have hfront : Derivation.front ⟨.nonterminal name :: rest, unread⟩ = name :=
      Derivation.front_nonterminal
    have hexpands := ExpandsInto.intro rest (some (String.ofList unread)) ⟨_, halternatives, hp⟩
    rwa [← hfront] at hexpands

lemma Grammar.derivationStep_of_replays
    (h : g.derivations.Replays Derivation.view (g.derivationView input) earlier step) :
    g.DerivationStep input earlier step := by
  cases h with
  | forced hbefore h =>
    cases Derivation.finds_of_eq h with
    | consume text rest unread =>
      exact .consume rfl (hbefore.trans (congrArg some Derivation.view_append)) rfl
  | choice hbefore h =>
    exact .expand rfl rfl hbefore (expandsInto_of_choice h List.mem_cons_self)
  | @retry r hr =>
    obtain ⟨first, others, hprospect, halternatives⟩ := hr.alternatives
    exact .retry rfl rfl rfl hr.snapshot
      (expandsInto_of_choice hprospect (halternatives ▸ r.alternative_mem))
  | @abandonment c hc =>
    obtain ⟨first, others, hprospect, -⟩ := hc.alternatives
    obtain ⟨snapshot, alternatives, t, cursor⟩ := c
    have hbefore := hc.snapshot
    cases Derivation.finds_of_eq hprospect with
    | choice rest unread halternatives =>
      exact .abandonment (congrArg Action.abandonExpansion Derivation.front_nonterminal) rfl
        hbefore rfl
  | ending hending hview hleft => exact .ending hending (hview ▸ hleft)

lemma Derivation.isEnding_refusal (expected : String) (unread : List Char) :
    (refusal expected unread).isEnding = true := by
  cases unread <;> rfl

lemma Grammar.isDisplayed_derivations : g.derivations.IsDisplayed Derivation.view where
  toIsLabelled := g.isLabelled_derivations
  view_step _ _ := rfl
  view_giveUp _ _ := rfl
  advances_of_forced h := by
    cases Derivation.finds_of_eq h
    rfl
  isEnding_of_breakdown h := by
    cases Derivation.finds_of_eq h
    rfl
  isEnding_of_deadEnd h := by
    cases Derivation.finds_of_eq h with
    | leftover => rfl
    | barren => rfl
    | refusal => exact Derivation.isEnding_refusal ..
  isEnding_giveUp _ h := h

/-- Every step of a search for a derivation can be told from the steps before it. -/
theorem Grammar.searchDerivation_replays (g : Grammar) (input : String) (limit : Nat) :
    (g.searchDerivation input limit).Completes (g.DerivationStep input) := by
  have hview : some (g.derivationOf input).view = g.derivationView input := by
    simp [Derivation.view, derivationOf, derivationView]
  have hstart : g.derivations.Replayed Derivation.view (g.derivationView input)
      (g.DerivationStep input) ⟨g.derivationOf input, [], .empty⟩ :=
    ⟨obeys_nil, hview.symm, hview.symm, List.forall_mem_nil _⟩
  exact hstart.completes_run g.isDisplayed_derivations (fun _ _ => derivationStep_of_replays) limit

/-! ### Reductions -/

/-- What a search for a reduction shows of a form. It reads no input. -/
def Form.view (form : Form) : View := ⟨form, none⟩

/-- A reduction of the symbols in the span of a candidate, which are those of its production. -/
inductive Grammar.ReducesInto (g : Grammar) : Candidate → View → View → Prop where
  | intro {name : String} {p : Production} (before after : Form) (hp : g.HasProduction name p) :
      ReducesInto g
        { nonterminal := name, production := p.text
          span := some ⟨before.length, before.length + (p.symbols .char).length⟩ }
        (Form.view (before ++ p.symbols .char ++ after))
        (Form.view (before ++ .nonterminal name :: after))

/-- A step of a search for a reduction of some tokens, told from the steps before it. -/
inductive Grammar.ReductionStep (g : Grammar) (tokens : Form) (earlier : List Step)
    (step : Step) : Prop where
  | start (hearlier : earlier = []) (haction : step.action = .start)
      (hview : step.view = Form.view tokens)
  | normalize {before after : Form} {text name : String}
      (haction : step.action = .normalize text name)
      (hbefore : viewBefore none earlier earlier.length =
        some (Form.view (before ++ .terminal text :: after)))
      (hleftmost : ∀ other, .terminal other ∈ before → ∀ lexical, ¬g.IsClassOf lexical other)
      (hfirst : g.IsFirstClassOf name text)
      (hview : step.view = Form.view (before ++ .nonterminal name :: after))
  | reduce {taken : Candidate} {before : View}
      (haction : step.action = .reduce taken.nonterminal taken.production)
      (hselected : step.selected = some taken)
      (hbefore : viewBefore none earlier earlier.length = some before)
      (hview : g.ReducesInto taken before step.view)
  | retry {t : Nat} {taken : Candidate} {before : View}
      (haction : step.action = .retry taken.nonterminal taken.production)
      (hselected : step.selected = some taken) (hto : step.backtrackTo = some t)
      (hbefore : viewBefore none earlier t = some before)
      (hview : g.ReducesInto taken before step.view)
  | abandonment {t : Nat} {form : Form} (haction : step.action = .abandonReduction form.text)
      (hto : step.backtrackTo = some t) (hbefore : viewBefore none earlier t = some form.view)
      (hview : step.view = form.view)
  | ending {form : Form} (hending : step.action.isEnding = true)
      (hleft : viewLeft none earlier = some form.view) (hview : step.view = form.view)

variable {form tokens : Form} {s next : SearchState Form Reduction}

lemma Grammar.reducesInto_of_mem {r : Reduction} (hr : r ∈ g.reductionRules.reductions form) :
    g.ReducesInto r.candidate form.view (Form.view (Reduction.apply form r)) := by
  obtain ⟨name, p, span⟩ := r
  obtain ⟨hp, before, after, rfl, hspan⟩ := (mem_reductions.mp hr).exists_occurrence
  obtain rfl : span = ⟨before.length, before.length + (p.symbols .char).length⟩ := hspan
  rw [Reduction.apply_occurrence]
  exact .intro before after hp

lemma Grammar.reducesInto_of_choice {first r : Reduction} {others : List Reduction}
    (h : g.reductionRules.space.prospect form = .choice first others) (hr : r ∈ first :: others) :
    g.ReducesInto r.candidate form.view (Form.view (Reduction.apply form r)) := by
  cases finds_of_eq h with
  | choice _ hfound =>
    rw [← hfound] at hr
    exact reducesInto_of_mem hr

lemma Grammar.reductionStep_of_replays
    (h : g.reductionRules.space.Replays Form.view none earlier step) :
    g.ReductionStep tokens earlier step := by
  cases h with
  | forced _ h => cases finds_of_eq h
  | choice hbefore h =>
    exact .reduce rfl rfl hbefore (reducesInto_of_choice h List.mem_cons_self)
  | @retry r hr =>
    obtain ⟨first, others, hprospect, halternatives⟩ := hr.alternatives
    exact .retry rfl rfl rfl hr.snapshot
      (reducesInto_of_choice hprospect (halternatives ▸ r.alternative_mem))
  | abandonment hc => exact .abandonment rfl rfl hc.snapshot rfl
  | ending hending hview hleft => exact .ending hending hleft hview

lemma Grammar.isDisplayed_reductions : g.reductionRules.space.IsDisplayed Form.view where
  toIsLabelled := g.isLabelled_reductions
  view_step _ _ := rfl
  view_giveUp form reason := by
    have ⟨hform, hremaining⟩ : (g.reductionRules.giveUp form reason).form = form ∧
        (g.reductionRules.giveUp form reason).remaining = none := g.form_giveUp
    exact congrArg₂ View.mk hform hremaining
  advances_of_forced h := by cases finds_of_eq h
  isEnding_of_breakdown h := by cases finds_of_eq h
  isEnding_of_deadEnd h := by
    cases finds_of_eq h
    rfl
  isEnding_giveUp form hreason := by
    change (g.reductionRules.giveUp form _).action.isEnding = true
    rw [ReductionRules.giveUp]
    split_ifs
    · exact hreason
    · rfl

lemma Grammar.Replaces.replayed (h : Replaces g.lexicalClasses s next)
    (hs : g.reductionRules.space.Replayed Form.view none (g.ReductionStep tokens) s) :
    g.reductionRules.space.Replayed Form.view none (g.ReductionStep tokens) next := by
  cases h with
  | @intro before after text name trace hbefore hclass =>
    have hleftmost : ∀ other, .terminal other ∈ before → ∀ lexical, ¬g.IsClassOf lexical other :=
      fun other hmem lexical => not_isClassOf_of_classOf (hbefore _ hmem)
    exact SearchSpace.replayed_push hs.obeys
      (.normalize rfl hs.before hleftmost (isFirstClassOf_of_classOf hclass) rfl) rfl rfl
      (List.forall_mem_nil _)

lemma Grammar.ReplacesTo.replayed {limit : Nat} (h : ReplacesTo g.lexicalClasses limit s next)
    (hs : g.reductionRules.space.Replayed Form.view none (g.ReductionStep tokens) s) :
    g.reductionRules.space.Replayed Form.view none (g.ReductionStep tokens) next := by
  induction h with
  | refl => exact hs
  | tail _ hstep ih => exact hstep.2.replayed ih

/-- The first step of a search for a reduction shows where the search stands. -/
lemma Grammar.replayed_start :
    g.reductionRules.space.Replayed Form.view none (g.ReductionStep tokens)
      ⟨tokens, [], Trace.empty.push { action := .start, form := tokens }⟩ :=
  SearchSpace.replayed_push obeys_nil (.start rfl rfl rfl) rfl rfl (List.forall_mem_nil _)

lemma Grammar.completes_searchReduction (limit : Nat) (htokens : scan .char input = .ok tokens) :
    (g.searchReduction input limit).Completes (g.ReductionStep tokens) := by
  obtain ⟨state, last, hreplaces, hreach, hends⟩ := g.exists_ends_searchReduction limit htokens
  have hlaw : ∀ ⦃earlier step⦄, g.reductionRules.space.Replays Form.view none earlier step →
      g.ReductionStep tokens earlier step := fun _ _ => reductionStep_of_replays
  exact hends.completes g.isDisplayed_reductions hlaw
    (hreach.replayed g.isDisplayed_reductions hlaw (hreplaces.replayed replayed_start))

lemma Grammar.ReductionStep.remaining_eq_none (h : g.ReductionStep tokens earlier step) :
    step.remaining = none := by
  cases h with
  | start _ _ hview | normalize _ _ _ _ hview | abandonment _ _ _ hview | ending _ _ hview =>
    exact congrArg View.remaining hview
  | reduce _ _ _ hview | retry _ _ _ _ hview =>
    generalize hafter : step.view = after at hview
    cases hview
    exact congrArg View.remaining hafter

/-- The first step has none before it that it could be told from. -/
lemma Grammar.ReductionStep.of_nil (h : g.ReductionStep tokens [] step) :
    step.action = .start ∧ step.form = tokens := by
  have hnone : ∀ t, viewBefore none [] t = none := by
    intro t
    cases t <;> rfl
  cases h with
  | start _ haction hview => exact ⟨haction, congrArg View.form hview⟩
  | normalize _ hbefore | reduce _ _ hbefore | retry _ _ _ hbefore | abandonment _ _ hbefore =>
    rw [hnone] at hbefore
    cases hbefore
  | ending _ hleft => cases hleft

/-- Every step of a search for a reduction can be told from the steps before it. The first one
shows the tokens of the input, and none shows unread input. -/
theorem Grammar.searchReduction_replays (g : Grammar) (input : String) (limit : Nat)
    {tokens : Form} (htokens : scan .char input = .ok tokens) :
    (∃ first, (g.searchReduction input limit).get? 0 = some first ∧ first.action = .start ∧
      first.form = tokens) ∧
    (g.searchReduction input limit).Completes (g.ReductionStep tokens) ∧
    ∀ step ∈ (g.searchReduction input limit).toList, step.remaining = none := by
  have hcompletes := completes_searchReduction (g := g) limit htokens
  refine ⟨?_, hcompletes, ?_⟩
  · obtain ⟨last, hlast, -⟩ := hcompletes.ending
    rw [Trace.last?_eq_getLast?] at hlast
    obtain ⟨first, rest, hcons⟩ :=
      List.exists_cons_of_ne_nil (List.ne_nil_of_mem (List.mem_of_getLast? hlast))
    have hget : (g.searchReduction input limit).toList[0]? = some first := by simp [hcons]
    exact ⟨first, Trace.get?_eq.trans hget, (hcompletes.obeys 0 first hget).of_nil⟩
  · intro step hstep
    obtain ⟨i, hi⟩ := List.mem_iff_getElem?.mp hstep
    exact (hcompletes.obeys i step hi).remaining_eq_none

theorem Grammar.sums_replays :
    scan .char "1+0" = .ok [.terminal "1", .terminal "+", .terminal "0"] ∧
    (Grammar.sums.searchReduction "1+0" 100).Completes
      (Grammar.sums.ReductionStep [.terminal "1", .terminal "+", .terminal "0"]) := by
  have htokens : scan .char "1+0" = .ok [.terminal "1", .terminal "+", .terminal "0"] :=
    scan_of_plain (by decide) (by decide)
  exact ⟨htokens, (Grammar.sums.searchReduction_replays "1+0" 100 htokens).2.1⟩

end GrammarTrace
