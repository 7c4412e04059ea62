import Mathlib.Data.List.Nodup
import GrammarTrace.Proofs.Candidates

/-!
# Candidates that are listed more than once

A rule may have the same alternative twice, and then a choice lists the same candidate twice. That
is the only way in which it comes to be repeated: a candidate is listed as often as its rule has the
production (`Grammar.count_expansions`, `Grammar.count_reductions`).
-/

namespace GrammarTrace

variable {g : Grammar} {name other : String} {p q : Production} {form : Form} {r : Reduction}
  {alternatives : List Production}

/-- How often the rule of a candidate has its production. -/
def Grammar.multiplicity (g : Grammar) (candidate : Candidate) : Nat :=
  ((g.alternatives? candidate.nonterminal).getD []).countP fun p => p.text = candidate.production

/-! ### Expansions -/

/-- The expansions of a nonterminal list a candidate as often as the rule has the production. -/
lemma Grammar.count_expansions (h : g.alternatives? name = some alternatives) (text : String) :
    (alternatives.map fun p : Production =>
        ({ nonterminal := name, production := p.text } : Candidate)).count
      { nonterminal := name, production := text } =
        g.multiplicity { nonterminal := name, production := text } := by
  rw [multiplicity, h, Option.getD_some, List.count, List.countP_map]
  refine List.countP_congr fun p _ => ?_
  simp

/-! ### Reductions -/

/-- A production is determined by its text. -/
lemma Production.eq_of_text (h : p.text = q.text) : p = q := by
  obtain ⟨text, runs, hruns⟩ := p
  obtain ⟨text', runs', hruns'⟩ := q
  obtain rfl : text = text' := h
  obtain rfl : runs = runs' := Except.ok.inj (hruns.symm.trans hruns')
  rfl

lemma Production.of_mem_reductions (h : r ∈ p.reductions name form) :
    r.nonterminal = name ∧ r.production = p := by
  rw [reductions] at h
  split_ifs at h
  · obtain rfl := List.mem_singleton.mp h
    exact ⟨rfl, rfl⟩
  · cases h
  · obtain ⟨start, -, rfl⟩ := List.mem_map.mp h
    exact ⟨rfl, rfl⟩

/-- A production is listed once for each place where it occurs. -/
lemma Production.nodup_candidates (p : Production) (name : String) (form : Form) :
    ((p.reductions name form).map Reduction.candidate).Nodup := by
  refine List.pairwise_map.mpr ((p.reductions_pairwise name form).imp ?_)
  intro one other hlt heq
  have hspan : some one.span = some other.span := congrArg Candidate.span heq
  rw [Option.some.inj hspan] at hlt
  exact Nat.lt_irrefl _ hlt

/-- Only the same production of the same rule is listed as the same candidate. -/
lemma Production.count_candidates (h : r ∈ p.reductions name form) :
    ((q.reductions other form).map Reduction.candidate).count r.candidate =
      if other = name ∧ q.text = p.text then 1 else 0 := by
  split_ifs with hsame
  · obtain ⟨rfl, htext⟩ := hsame
    obtain rfl := eq_of_text htext
    exact List.count_eq_one_of_mem (q.nodup_candidates other form) (List.mem_map_of_mem h)
  · refine List.count_eq_zero_of_not_mem fun hmem => hsame ?_
    obtain ⟨s, hs, hcandidate⟩ := List.mem_map.mp hmem
    obtain ⟨rfl, rfl⟩ := of_mem_reductions h
    obtain ⟨rfl, rfl⟩ := of_mem_reductions hs
    exact ⟨congrArg Candidate.nonterminal hcandidate, congrArg Candidate.production hcandidate⟩

/-- A rule is the only one of its name, so the productions of the name are its alternatives. -/
lemma Grammar.countP_productions (h : g.alternatives? name = some alternatives) (text : String) :
    g.productions.countP (fun rule => rule.1 = name ∧ rule.2.text = text) =
      alternatives.countP fun p => p.text = text := by
  obtain ⟨before, after, hsplit⟩ := List.append_of_mem (Table.get?_eq_some_iff.mp h)
  have hnodup := g.rules.nodup
  rw [hsplit, List.map_append, List.map_cons] at hnodup
  have hbefore : name ∉ before.map Prod.fst := by grind
  have hafter : name ∉ after.map Prod.fst := by grind
  have hother : ∀ rules : List (String × List Production), name ∉ rules.map Prod.fst →
      (rules.flatMap fun rule => rule.2.map (rule.1, ·)).countP
        (fun rule => rule.1 = name ∧ rule.2.text = text) = 0 := by
    intro rules hrules
    rw [List.countP_eq_zero]
    intro rule hrule hsame
    obtain ⟨entry, hentry, hp⟩ := List.mem_flatMap.mp hrule
    obtain ⟨p, -, rfl⟩ := List.mem_map.mp hp
    obtain ⟨rfl, -⟩ := of_decide_eq_true hsame
    exact hrules (List.mem_map_of_mem hentry)
  rw [productions, hsplit, List.flatMap_append, List.flatMap_cons, List.countP_append,
    List.countP_append, hother before hbefore, hother after hafter, List.countP_map]
  simp [Function.comp_def]

/-- The reductions of a form list a candidate as often as the rule has the production. -/
theorem Grammar.count_reductions (h : r ∈ g.reductionRules.reductions form) :
    ((g.reductionRules.reductions form).map Reduction.candidate).count r.candidate =
      g.multiplicity r.candidate := by
  rw [ReductionRules.reductions, reductionRules, ← Production.flatMap_reductions] at h ⊢
  obtain ⟨rule, hrule, hr⟩ := List.mem_flatMap.mp h
  obtain ⟨hname, hp⟩ := Production.of_mem_reductions hr
  obtain ⟨alternatives, halternatives, -⟩ := hasProduction_iff_mem_productions.mpr hrule
  have hmultiplicity : g.multiplicity r.candidate =
      alternatives.countP fun p => p.text = rule.2.text := by
    rw [multiplicity, Reduction.candidate, hname, hp, halternatives, Option.getD_some]
  rw [hmultiplicity, ← countP_productions halternatives, List.map_flatMap]
  refine count_flatMap_of_ite fun other hother => ?_
  simpa using Production.count_candidates hr

end GrammarTrace
