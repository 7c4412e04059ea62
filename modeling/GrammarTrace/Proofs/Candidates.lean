import Mathlib.Data.List.Forall2
import GrammarTrace.Proofs.Decision
import GrammarTrace.Proofs.Search.Alternatives

/-!
# The reductions that are offered

A reduction has a site: the rule and the alternative that declare its production, and the position
at which the production occurs. What a step of a search for a reduction offers are the reductions of
the form before it, one for each site, in the order of the sites
(`Grammar.searchReduction_offers`).
-/

namespace GrammarTrace

/-! ### Sites -/

/-- Where a production is declared in a grammar, and where it occurs in a form. -/
structure Site where
  rule : Nat
  alternative : Nat
  start : Nat

/-- The order of the rules, then of the alternatives of a rule, then of the positions in a form. -/
inductive Site.Precedes (one other : Site) : Prop where
  | rule (h : one.rule < other.rule)
  | alternative (hrule : one.rule = other.rule) (h : one.alternative < other.alternative)
  | start (hrule : one.rule = other.rule) (halternative : one.alternative = other.alternative)
      (h : one.start < other.start)

/-- The candidate that a site of a form offers: a nonempty production where its symbols are those of
the form, or an empty one in the empty form. -/
inductive Grammar.OffersAt (g : Grammar) : Form → Site → Candidate → Prop where
  | occurrence {form : Form} {rule alternative start : Nat} {name : String}
      {alternatives : List Production} {p : Production}
      (hrule : g.rules.entries[rule]? = some (name, alternatives))
      (hp : alternatives[alternative]? = some p) (hempty : p.isEmpty = false)
      (hspan : (form.drop start).take (p.symbols .char).length = p.symbols .char) :
      OffersAt g form ⟨rule, alternative, start⟩
        { nonterminal := name, production := p.text
          span := some ⟨start, start + (p.symbols .char).length⟩ }
  | empty {rule alternative : Nat} {name : String} {alternatives : List Production}
      {p : Production} (hrule : g.rules.entries[rule]? = some (name, alternatives))
      (hp : alternatives[alternative]? = some p) (hempty : p.isEmpty = true) :
      OffersAt g [] ⟨rule, alternative, 0⟩
        { nonterminal := name, production := p.text, span := some ⟨0, 0⟩ }

/-- Whether candidates are those of all sites of a form, one for each site and in their order. -/
def Grammar.OffersInOrder (g : Grammar) (form : Form) (candidates : List Candidate) : Prop :=
  ∃ sites : List Site, sites.Pairwise Site.Precedes ∧
    List.Forall₂ (g.OffersAt form) sites candidates ∧
    ∀ site candidate, g.OffersAt form site candidate → site ∈ sites

variable {g : Grammar} {name : String} {p : Production} {form pattern : Form} {site : Site}
  {candidate : Candidate} {r : Reduction} {start position : Nat}

/-! ### The reductions by one production -/

/-- The reductions of a form by an alternative of a rule. -/
def Production.reductions (p : Production) (name : String) (form : Form) : List Reduction :=
  if p.isEmpty then if form.isEmpty then [⟨name, p, ⟨0, 0⟩⟩] else []
  else Pattern.reductions form ⟨name, p, p.symbols .char⟩

lemma Form.take_drop_eq_iff (hpattern : pattern ≠ []) :
    (form.drop start).take pattern.length = pattern ↔
      ∃ before after, form = before ++ pattern ++ after ∧ start = before.length := by
  constructor
  · intro hspan
    have hstart : start ≤ form.length := by
      by_contra hlong
      rw [List.drop_eq_nil_of_le (by omega), List.take_nil] at hspan
      exact hpattern hspan.symm
    obtain ⟨after, hafter⟩ := List.prefix_iff_eq_take.mpr hspan.symm
    refine ⟨form.take start, after, ?_, by simp [hstart]⟩
    rw [List.append_assoc, hafter, List.take_append_drop]
  · rintro ⟨before, after, rfl, rfl⟩
    rw [List.append_assoc, List.drop_left, List.take_left]

lemma Form.occurrencesFrom_pairwise (pattern : Form) (position : Nat) (form : Form) :
    (Form.occurrencesFrom pattern position form).Pairwise (· < ·) ∧
      ∀ start ∈ Form.occurrencesFrom pattern position form, position ≤ start := by
  induction form generalizing position with
  | nil => exact ⟨.nil, List.forall_mem_nil _⟩
  | cons symbol rest ih =>
    obtain ⟨hordered, hlater⟩ := ih (position + 1)
    rw [occurrencesFrom]
    split_ifs
    · refine ⟨List.pairwise_cons.mpr ⟨hlater, hordered⟩, ?_⟩
      rintro start (_ | ⟨_, hstart⟩)
      · exact le_rfl
      · exact Nat.le_of_succ_le (hlater start hstart)
    · exact ⟨hordered, fun start hstart => Nat.le_of_succ_le (hlater start hstart)⟩

/-- The reductions by one production go from left to right. -/
lemma Production.reductions_pairwise (p : Production) (name : String) (form : Form) :
    (p.reductions name form).Pairwise fun one other => one.span.start < other.span.start := by
  rw [reductions]
  split_ifs
  · exact List.pairwise_singleton _ _
  · exact .nil
  · exact List.pairwise_map.mpr (Form.occurrencesFrom_pairwise _ 0 form).1

/-- The reductions by a production are offered where the production is declared. -/
lemma Production.offersAt_iff {rule alternative : Nat} {alternatives : List Production}
    (hrule : g.rules.entries[rule]? = some (name, alternatives))
    (hp : alternatives[alternative]? = some p) :
    g.OffersAt form ⟨rule, alternative, start⟩ candidate ↔
      ∃ r ∈ p.reductions name form, r.span.start = start ∧ r.candidate = candidate := by
  constructor
  · intro h
    cases h with
    | occurrence hrule' hp' hempty hspan =>
      obtain ⟨rfl, rfl⟩ := Prod.mk.inj (Option.some.inj (hrule.symm.trans hrule'))
      obtain rfl := Option.some.inj (hp.symm.trans hp')
      have hsymbols := p.symbols_char_ne_nil hempty
      obtain ⟨before, after, rfl, rfl⟩ := (Form.take_drop_eq_iff hsymbols).mp hspan
      refine ⟨⟨name, p, ⟨before.length, _⟩⟩, ?_, rfl, rfl⟩
      rw [reductions, hempty, if_neg Bool.false_ne_true]
      exact (Pattern.mem_reductions hsymbols).mpr ⟨before, after, rfl, rfl⟩
    | empty hrule' hp' hempty =>
      obtain ⟨rfl, rfl⟩ := Prod.mk.inj (Option.some.inj (hrule.symm.trans hrule'))
      obtain rfl := Option.some.inj (hp.symm.trans hp')
      refine ⟨⟨name, p, ⟨0, 0⟩⟩, ?_, rfl, rfl⟩
      rw [reductions, if_pos hempty, if_pos List.isEmpty_nil]
      exact List.mem_singleton_self _
  · rintro ⟨r, hr, rfl, rfl⟩
    rw [reductions] at hr
    split_ifs at hr with hempty hform
    · obtain rfl := List.mem_singleton.mp hr
      obtain rfl := List.isEmpty_iff.mp hform
      exact .empty hrule hp hempty
    · cases hr
    · have hempty : p.isEmpty = false := Bool.eq_false_iff.mpr hempty
      have hsymbols := p.symbols_char_ne_nil hempty
      obtain ⟨before, after, hform, rfl⟩ := (Pattern.mem_reductions hsymbols).mp hr
      exact .occurrence hrule hp hempty
        ((Form.take_drop_eq_iff hsymbols).mpr ⟨before, after, hform, rfl⟩)

/-! ### All reductions -/

/-- Sorting productions into empty and nonempty ones leaves reductions in their order, because a
form has reductions by only one sort. -/
lemma Production.flatMap_reductions (productions : List (String × Production)) (form : Form) :
    (productions.flatMap fun rule => rule.2.reductions rule.1 form) =
      if form.isEmpty then
        ((productions.filter fun rule => rule.2.isEmpty).map fun rule =>
          (⟨rule.1, rule.2, []⟩ : Pattern)).map Pattern.emptyReduction
      else
        ((productions.filter fun rule => !rule.2.isEmpty).map fun rule =>
          (⟨rule.1, rule.2, rule.2.symbols .char⟩ : Pattern)).flatMap
            (Pattern.reductions form) := by
  induction productions with
  | nil => simp
  | cons rule rest ih =>
    rw [List.flatMap_cons, ih, reductions]
    cases form <;> cases hempty : rule.2.isEmpty <;>
      simp [hempty, Pattern.emptyReduction, Pattern.reductions, Form.occurrencesFrom]

lemma Grammar.reductions_eq (g : Grammar) (form : Form) :
    g.reductionRules.reductions form =
      g.rules.entries.flatMap fun rule => rule.2.flatMap fun p => p.reductions rule.1 form := by
  rw [ReductionRules.reductions, reductionRules, ← Production.flatMap_reductions, productions,
    List.flatMap_assoc]
  simp only [List.flatMap_map]

/-- The reductions of a form with their sites. -/
def Grammar.located (g : Grammar) (form : Form) : List (Site × Reduction) :=
  g.rules.entries.zipIdx.flatMap fun rule => rule.1.2.zipIdx.flatMap fun alternative =>
    (alternative.1.reductions rule.1.1 form).map fun r =>
      (⟨rule.2, alternative.2, r.span.start⟩, r)

lemma Grammar.map_snd_located :
    (g.located form).map Prod.snd = g.reductionRules.reductions form := by
  rw [located, List.map_flatMap, reductions_eq, ← flatMap_zipIdx g.rules.entries]
  refine List.flatMap_congr fun rule _ => ?_
  rw [List.map_flatMap, ← flatMap_zipIdx rule.1.2]
  refine List.flatMap_congr fun alternative _ => ?_
  rw [List.map_map, Function.comp_def, List.map_id']

lemma Grammar.mem_located :
    (site, r) ∈ g.located form ↔ ∃ name alternatives p,
      g.rules.entries[site.rule]? = some (name, alternatives) ∧
      alternatives[site.alternative]? = some p ∧ r ∈ p.reductions name form ∧
      r.span.start = site.start := by
  obtain ⟨rule, alternative, start⟩ := site
  simp only [located, List.mem_flatMap, List.mem_map, Prod.exists, List.mk_mem_zipIdx_iff_getElem?,
    Prod.mk.injEq, Site.mk.injEq]
  constructor
  · rintro ⟨name, alternatives, _, hrule, p, _, hp, r, hr, ⟨rfl, rfl, rfl⟩, rfl⟩
    exact ⟨name, alternatives, p, hrule, hp, hr, rfl⟩
  · rintro ⟨name, alternatives, p, hrule, hp, hr, hstart⟩
    exact ⟨name, alternatives, rule, hrule, p, alternative, hp, r, hr, ⟨rfl, rfl, hstart⟩, rfl⟩

lemma Grammar.located_pairwise :
    (g.located form).Pairwise fun one other => one.1.Precedes other.1 := by
  rw [located, List.pairwise_flatMap]
  refine ⟨fun rule _ => ?_, (zipIdx_pairwise _ 0).imp ?_⟩
  · rw [List.pairwise_flatMap]
    refine ⟨fun alternative _ => ?_, (zipIdx_pairwise _ 0).imp ?_⟩
    · exact List.pairwise_map.mpr
        ((alternative.1.reductions_pairwise ..).imp fun hstart => .start rfl rfl hstart)
    · rintro one other hlt _ hone _ hother
      obtain ⟨_, -, rfl⟩ := List.mem_map.mp hone
      obtain ⟨_, -, rfl⟩ := List.mem_map.mp hother
      exact .alternative rfl hlt
  · rintro one other hlt _ hone _ hother
    simp only [List.mem_flatMap, List.mem_map] at hone hother
    obtain ⟨_, -, _, -, rfl⟩ := hone
    obtain ⟨_, -, _, -, rfl⟩ := hother
    exact .rule hlt

lemma Grammar.OffersAt.exists_production (h : g.OffersAt form site candidate) :
    ∃ name alternatives p, g.rules.entries[site.rule]? = some (name, alternatives) ∧
      alternatives[site.alternative]? = some p := by
  cases h with
  | occurrence hrule hp | empty hrule hp => exact ⟨_, _, _, hrule, hp⟩

lemma Grammar.offersAt_iff : g.OffersAt form site candidate ↔
    ∃ r, (site, r) ∈ g.located form ∧ r.candidate = candidate := by
  constructor
  · intro h
    obtain ⟨name, alternatives, p, hrule, hp⟩ := h.exists_production
    obtain ⟨r, hr, hstart, hcandidate⟩ := (Production.offersAt_iff hrule hp).mp h
    exact ⟨r, mem_located.mpr ⟨name, alternatives, p, hrule, hp, hr, hstart⟩, hcandidate⟩
  · rintro ⟨r, hlocated, hcandidate⟩
    obtain ⟨name, alternatives, p, hrule, hp, hr, hstart⟩ := mem_located.mp hlocated
    exact (Production.offersAt_iff hrule hp).mpr ⟨r, hr, hstart, hcandidate⟩

/-- The reductions of a form are offered one for each site, in order. -/
theorem Grammar.offersInOrder (g : Grammar) (form : Form) :
    g.OffersInOrder form ((g.reductionRules.reductions form).map Reduction.candidate) := by
  refine ⟨(g.located form).map Prod.fst, List.pairwise_map.mpr located_pairwise, ?_, ?_⟩
  · rw [← map_snd_located, List.map_map, List.forall₂_map_left_iff, List.forall₂_map_right_iff,
      List.forall₂_same]
    exact fun located hlocated => offersAt_iff.mpr ⟨located.2, hlocated, rfl⟩
  · intro site candidate hoffers
    obtain ⟨r, hr, -⟩ := offersAt_iff.mp hoffers
    exact List.mem_map.mpr ⟨_, hr, rfl⟩

/-! ### Searches -/

variable {input : String} {limit i : Nat} {tokens : Form} {earlier : List Step} {step : Step}

/-- Only the goal is a success. -/
lemma Grammar.success_of_action (htokens : scan .char input = .ok tokens)
    (hstep : step ∈ (g.searchReduction input limit).toList) (haction : step.action = .success) :
    step.success = some true := by
  cases reductionKind_of_mem htokens hstep with
  | goal _ hmark => exact hmark
  | start h | normalize h | reduce h | retry h | abandonment h | limit h | noReductions h
  | exhausted h | inconclusive h => cases haction.symm.trans h

/-- What a step offers that makes a choice or reaches the goal. -/
lemma Grammar.offersInOrder_of_lists
    (h : g.reductionRules.space.Lists Form.view none earlier step) :
    ∃ form : Form, viewBefore none earlier earlier.length = some form.view ∧
      g.OffersInOrder form step.candidates ∧
      ∀ name production, step.action = .reduce name production →
        ∃ first others, step.candidates = first :: others ∧ step.selected = some first := by
  cases h with
  | @choice form first others hbefore h =>
    cases finds_of_eq h with
    | choice _ hfound =>
      have hoffers := g.offersInOrder form
      rw [hfound] at hoffers
      exact ⟨form, hbefore, hoffers, fun _ _ _ => ⟨_, _, rfl, rfl⟩⟩
  | @goal form alternatives hbefore h =>
    cases finds_of_eq h with
    | goal => exact ⟨form, hbefore, g.offersInOrder form, fun _ _ haction => by cases haction⟩

lemma Grammar.lists_searchReduction (htokens : scan .char input = .ok tokens)
    (hget : (g.searchReduction input limit).toList[i]? = some step)
    (hstep : step.action.role = .choice ∨ step.success = some true) :
    g.reductionRules.space.Lists Form.view none ((g.searchReduction input limit).toList.take i)
      step := by
  obtain ⟨state, last, hreplaces, hreach, hends⟩ := g.exists_ends_searchReduction limit htokens
  -- no choice is made before the search has its form
  have hearlier : ∀ step ∈ state.trace.toList, step.action.role ≠ .choice :=
    hreplaces.forall_steps (fun _ _ _ => by simp [Action.role]) (by simp [Action.role])
  have hstate : g.reductionRules.space.Replayed Form.view none
      (g.reductionRules.space.ListsChoices Form.view none) state :=
    { hreplaces.replayed replayed_start with
      obeys := fun _ _ hget hrole => absurd hrole (hearlier _ (List.mem_of_getElem? hget)) }
  have hlast := hreach.replayed g.isDisplayed_reductions
    (fun _ _ hreplays => hreplays.listsChoices g.isDisplayed_reductions) hstate
  exact hends.lists g.isDisplayed_reductions marksGoals_reductions hlast
    (hreach.undecided marksGoals_reductions hreplaces.undecided) hget hstep

/-- Every reduction that is made, and the success, is a step that offers all reductions of the form
before it in order. A reduction that is made is the first one offered. -/
theorem Grammar.searchReduction_offers (g : Grammar) (input : String) (limit : Nat) {id : Nat}
    {step : Step} (hget : (g.searchReduction input limit).get? id = some step)
    (haction : (∃ name production, step.action = .reduce name production) ∨
      step.action = .success) :
    ∃ earlier before, id = earlier + 1 ∧
      (g.searchReduction input limit).get? earlier = some before ∧
      g.OffersInOrder before.form step.candidates ∧
      ∀ name production, step.action = .reduce name production →
        ∃ first others, step.candidates = first :: others ∧ step.selected = some first := by
  rw [Trace.get?_eq] at hget
  cases htokens : scan .char input with
  | error e =>
    rw [searchReduction, htokens] at hget
    obtain rfl : step = _ := by simpa using List.mem_of_getElem? hget
    rcases haction with ⟨_, _, haction⟩ | haction <;> cases haction
  | ok tokens =>
    have hstep : step.action.role = .choice ∨ step.success = some true := by
      rcases haction with ⟨name, production, haction⟩ | haction
      · rw [haction]
        exact .inl rfl
      · exact .inr (success_of_action htokens (List.mem_of_getElem? hget) haction)
    obtain ⟨form, hbefore, hoffers, hselected⟩ :=
      offersInOrder_of_lists (lists_searchReduction htokens hget hstep)
    have hid : id ≤ (g.searchReduction input limit).toList.length :=
      Nat.le_of_lt (List.getElem?_eq_some_iff.mp hget).1
    obtain ⟨earlier, before, hlength, hearlier, hview⟩ := exists_of_viewBefore hbefore
    rw [List.length_take, Nat.min_eq_left hid] at hlength
    refine ⟨earlier, before, hlength, ?_, ?_, hselected⟩
    · rw [hlength, List.getElem?_take_of_lt (Nat.lt_succ_self _)] at hearlier
      rw [Trace.get?_eq, hearlier]
    · rwa [show before.form = form from congrArg View.form hview]

theorem Grammar.sums_offers :
    ((Grammar.sums.searchReduction "1+0" 100).get? 6).map Step.action =
      some (.reduce "<Sum>" "<Bit>+<Sum>") ∧
    Grammar.sums.OffersInOrder [.nonterminal "<Bit>", .terminal "+", .nonterminal "<Sum>"]
      [{ nonterminal := "<Sum>", production := "<Bit>+<Sum>", span := some ⟨0, 3⟩ },
        { nonterminal := "<Sum>", production := "<Bit>", span := some ⟨0, 1⟩ }] := by
  have haction : ((Grammar.sums.searchReduction "1+0" 100).get? 6).map Step.action =
      some (.reduce "<Sum>" "<Bit>+<Sum>") := by decide +kernel
  have hcandidates : ((Grammar.sums.searchReduction "1+0" 100).get? 6).map Step.candidates =
      some [{ nonterminal := "<Sum>", production := "<Bit>+<Sum>", span := some ⟨0, 3⟩ },
        { nonterminal := "<Sum>", production := "<Bit>", span := some ⟨0, 1⟩ }] := by
    decide +kernel
  have hform : ((Grammar.sums.searchReduction "1+0" 100).get? 5).map Step.form =
      some [.nonterminal "<Bit>", .terminal "+", .nonterminal "<Sum>"] := by decide +kernel
  refine ⟨haction, ?_⟩
  obtain ⟨step, hget, hreduce⟩ := Option.map_eq_some_iff.mp haction
  obtain ⟨earlier, before, hid, hbefore, hoffers, -⟩ :=
    Grammar.sums.searchReduction_offers "1+0" 100 hget (.inl ⟨_, _, hreduce⟩)
  obtain rfl : earlier = 5 := by omega
  rw [hget, Option.map_some, Option.some.injEq] at hcandidates
  rw [hbefore, Option.map_some, Option.some.injEq] at hform
  rwa [hcandidates, hform] at hoffers

end GrammarTrace
