import GrammarTrace.Proofs.Backtracking
import GrammarTrace.Proofs.Classification
import GrammarTrace.Proofs.Search.Priority

/-!
# The first match

Several sequences of choices may lead from an input to the goal of a strategy
(`Strategy.IsSearchPath`). A run that accepts has found the one that comes first when alternatives
are compared in their order of preference, the earliest choices before the later ones
(`Strategy.run_first`).
-/

namespace GrammarTrace

/-! ### Search paths -/

/-- A leftmost derivation of an input from a form, with the numbers of the alternatives that it
takes in declaration order. -/
inductive Grammar.ExpandsAlong (g : Grammar) : Form → List Char → List Nat → Prop where
  | done : ExpandsAlong g [] [] []
  | consume {text : String} {rest : Form} {unread : List Char} {path : List Nat}
      (h : ExpandsAlong g rest unread path) :
      ExpandsAlong g (.terminal text :: rest) (text.toList ++ unread) path
  | expand {name : String} {alternatives : List Production} {i : Nat} {p : Production}
      {rest : Form} {unread : List Char} {path : List Nat}
      (halternatives : g.alternatives? name = some alternatives) (hp : alternatives[i]? = some p)
      (h : ExpandsAlong g (p.runs ++ rest) unread path) :
      ExpandsAlong g (.nonterminal name :: rest) unread (i :: path)

/-- A sequence of reductions of a form to the start symbol, with their numbers among those of each
form on the way. -/
inductive Grammar.ReducesAlong (g : Grammar) : Form → List Nat → Prop where
  | done : ReducesAlong g [g.startSymbol] []
  | reduce {form : Form} {i : Nat} {r : Reduction} {path : List Nat}
      (hr : (g.reductionRules.reductions form)[i]? = some r)
      (h : ReducesAlong g (Reduction.apply form r) path) : ReducesAlong g form (i :: path)

/-- The numbers of the choices on a way from an input to the goal of a strategy. -/
def Strategy.IsSearchPath (strategy : Strategy) (g : Grammar) (input : String)
    (path : List Nat) : Prop :=
  match strategy with
  | .topDown => g.ExpandsAlong [g.startSymbol] input.toList path
  | .bottomUp => ∃ tokens, scan .char input = .ok tokens ∧ g.ReducesAlong (g.classified tokens) path

/-- The numbers of the alternatives that survive in a trace. -/
def Trace.path (trace : Trace) : List Nat := indices (survivors trace.toList)

variable {g : Grammar} {input : String} {limit : Nat} {path : List Nat} {form : Form}
  {d : Derivation}

/-! ### Derivations -/

lemma Grammar.expandsAlong_of_succeeds (h : g.derivations.Succeeds d path) :
    g.ExpandsAlong d.form d.unread path := by
  induction h with
  | goal h =>
    cases Derivation.finds_of_eq h with
    | goal => exact .done
  | forced h _ ih =>
    cases Derivation.finds_of_eq h with
    | consume text rest unread => exact .consume ih
  | choice h hp _ ih =>
    cases Derivation.finds_of_eq h with
    | choice rest unread halternatives => exact .expand halternatives hp ih

lemma Grammar.ExpandsAlong.succeeds {unread : List Char} (h : g.ExpandsAlong form unread path) :
    g.derivations.Succeeds ⟨form, unread⟩ path := by
  induction h with
  | done => exact .goal rfl
  | consume _ ih => exact .forced Derivation.prospect_terminal ih
  | expand halternatives hp _ ih =>
    obtain ⟨first, others, rfl⟩ := List.exists_cons_of_ne_nil
      (List.ne_nil_of_mem (List.mem_of_getElem? hp))
    exact .choice (Derivation.prospect_nonterminal halternatives) hp ih

theorem Grammar.searchDerivation_first
    (haccepted : (g.searchDerivation input limit).verdict = .accepted) :
    Strategy.topDown.IsSearchPath g input (g.searchDerivation input limit).path ∧
      ∀ path, Strategy.topDown.IsSearchPath g input path →
        ¬path < (g.searchDerivation input limit).path := by
  have hplain : ∀ step ∈ Trace.empty.toList, step.action.role.IsPlain := List.forall_mem_nil _
  obtain ⟨hsucceeds, hnone⟩ := SearchSpace.first_of_accepted g.isLabelled_derivations
    g.marksGoals_derivations hplain haccepted
  refine ⟨expandsAlong_of_succeeds hsucceeds, ?_⟩
  intro path hpath
  exact hnone path hpath.succeeds

/-! ### Reductions -/

lemma Grammar.reducesAlong_of_succeeds (h : g.reductionRules.space.Succeeds form path) :
    g.ReducesAlong form path := by
  induction h with
  | goal h =>
    cases finds_of_eq h with
    | goal heq => exact heq ▸ .done
  | forced h => cases finds_of_eq h
  | choice h hr _ ih =>
    cases finds_of_eq h with
    | choice _ hfound =>
      rw [← hfound] at hr
      exact .reduce hr ih

/-- The search stops at the start symbol, beyond which reductions may lead back to it. -/
lemma Grammar.ReducesAlong.exists_succeeds (h : g.ReducesAlong form path) :
    ∃ first, first <+: path ∧ g.reductionRules.space.Succeeds form first := by
  induction h with
  | done =>
    obtain ⟨alternatives, hgoal⟩ := g.prospect_start
    exact ⟨[], List.nil_prefix, .goal hgoal⟩
  | @reduce form i r path hr _ ih =>
    have hfinds : g.Finds form (g.reductionRules.space.prospect form) := finds_prospect
    generalize hprospect : g.reductionRules.space.prospect form = prospect at hfinds
    cases hfinds with
    | goal => exact ⟨[], List.nil_prefix, .goal hprospect⟩
    | deadEnd _ hfound => simp [hfound] at hr
    | choice _ hfound =>
      obtain ⟨first, hfirst, hsucceeds⟩ := ih
      rw [hfound] at hr
      exact ⟨i :: first, List.cons_prefix_cons.mpr ⟨rfl, hfirst⟩, .choice hprospect hr hsucceeds⟩

theorem Grammar.searchReduction_first
    (haccepted : (g.searchReduction input limit).verdict = .accepted) :
    Strategy.bottomUp.IsSearchPath g input (g.searchReduction input limit).path ∧
      ∀ path, Strategy.bottomUp.IsSearchPath g input path →
        ¬path < (g.searchReduction input limit).path := by
  cases htokens : scan .char input with
  | error e =>
    rw [searchReduction, htokens, Trace.verdict_push] at haccepted
    cases haccepted
  | ok tokens =>
    have hsearches := searchesFrom_searchReduction limit htokens g.classesPreserve_true trivial
    generalize g.searchReduction input limit = trace at haccepted hsearches
    cases hsearches with
    | stopped =>
      rw [Trace.verdict_push] at haccepted
      cases haccepted
    | @searched form steps _ _ hsteps htrace h =>
      obtain rfl : form = g.classified tokens := position_of_normalize h
      subst htrace
      obtain ⟨hsucceeds, hnone⟩ := SearchSpace.first_of_accepted g.isLabelled_reductions
        g.marksGoals_reductions (Step.isPlain_of_normalizes hsteps) haccepted
      refine ⟨⟨tokens, htokens, reducesAlong_of_succeeds hsucceeds⟩, ?_⟩
      rintro path ⟨tokens', htokens', hpath⟩ hlt
      obtain rfl : tokens = tokens' := Except.ok.inj (htokens.symm.trans htokens')
      -- a path that goes on beyond the start symbol comes after its part up to there
      obtain ⟨first, hfirst, hsucceeds⟩ := hpath.exists_succeeds
      exact hnone first hsucceeds (List.lt_of_le_of_lt hfirst.le hlt)

/-- A run that accepts has found the first of all search paths in lexicographic order. -/
theorem Strategy.run_first (strategy : Strategy) (g : Grammar) (input : String) (limit : Nat)
    (haccepted : (strategy.run g input limit).verdict = .accepted) :
    strategy.IsSearchPath g input (strategy.run g input limit).path ∧
      ∀ path, strategy.IsSearchPath g input path → ¬path < (strategy.run g input limit).path := by
  cases strategy with
  | topDown => exact Grammar.searchDerivation_first haccepted
  | bottomUp => exact Grammar.searchReduction_first haccepted

theorem Strategy.sums_first :
    (Strategy.topDown.IsSearchPath Grammar.sums "1+0" [0, 1, 1, 0] ∧
      ∀ path, Strategy.topDown.IsSearchPath Grammar.sums "1+0" path → ¬path < [0, 1, 1, 0]) ∧
    Strategy.bottomUp.IsSearchPath Grammar.sums "1+0" [1, 0] ∧
      ∀ path, Strategy.bottomUp.IsSearchPath Grammar.sums "1+0" path → ¬path < [1, 0] := by
  have htopDown : (Strategy.topDown.run Grammar.sums "1+0" 100).verdict = .accepted ∧
      (Strategy.topDown.run Grammar.sums "1+0" 100).path = [0, 1, 1, 0] := by decide +kernel
  have hbottomUp : (Strategy.bottomUp.run Grammar.sums "1+0" 100).verdict = .accepted ∧
      (Strategy.bottomUp.run Grammar.sums "1+0" 100).path = [1, 0] := by decide +kernel
  constructor
  · rw [← htopDown.2]
    exact Strategy.run_first _ _ _ _ htopDown.1
  · rw [← hbottomUp.2]
    exact Strategy.run_first _ _ _ _ hbottomUp.1

end GrammarTrace
