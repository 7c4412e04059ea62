import GrammarTrace.Proofs.Replay
import GrammarTrace.Proofs.Search.Verdicts

/-!
# The step that decides

Only the last step of a trace says whether the input belongs to the grammar, and it says so just if
what it shows is what the strategy was looking for. A run that leaves the question open was stopped
at its limit or, with reductions, has passed over empty productions (`Strategy.run_decides`).
-/

namespace GrammarTrace

/-- What a strategy looks for: a derivation that has come to its end with the input, or the start
symbol alone. -/
def Strategy.IsGoal (strategy : Strategy) (g : Grammar) (view : View) : Prop :=
  match strategy with
  | .topDown => view.form = [] ∧ view.remaining = some ""
  | .bottomUp => view.form = [g.startSymbol]

/-- Only the last step of a trace decides, and it does so rightly. -/
structure Strategy.Decides (strategy : Strategy) (g : Grammar) (limit : Nat) (before : Trace)
    (last : Step) : Prop where
  undecided : Undecided before.toList
  success : last.success = some true ↔ strategy.IsGoal g last.view
  unmarked : last.success = none →
    (last.action = .stepLimit limit ∧ limit ≤ before.size) ∨
      (strategy = .bottomUp ∧ last.action = .inconclusive)

variable {g : Grammar} {limit : Nat} {form tokens : Form}

/-! ### Derivations -/

lemma Derivation.isGoal_prospect {d : Derivation} :
    (g.derivations.prospect d).isGoal = true ↔ Strategy.topDown.IsGoal g d.view := by
  have hfinds : d.Finds g (g.derivations.prospect d) := finds_prospect
  generalize g.derivations.prospect d = prospect at hfinds
  cases hfinds <;> simp [Prospect.isGoal, Strategy.IsGoal, view]

theorem Grammar.searchDerivation_decides (g : Grammar) (input : String) (limit : Nat) :
    ∃ before last, g.searchDerivation input limit = before.push last ∧
      Strategy.topDown.Decides g limit before last := by
  obtain ⟨before, last, d, htrace, hview, hdecides⟩ :=
    SearchSpace.exists_decides g.isDisplayed_derivations g.marksGoals_derivations
      (s := ⟨g.derivationOf input, [], .empty⟩) undecided_nil limit
  refine ⟨before, last, htrace, hdecides.undecided, ?_, ?_⟩
  · rw [hview, hdecides.success, Derivation.isGoal_prospect]
  · intro hnone
    rcases hdecides.unmarked hnone with hlimit | ⟨reason, rfl⟩
    · exact .inl hlimit
    · -- a search for a derivation never gives up without a mark
      cases hnone

/-! ### Reductions -/

lemma Grammar.isGoal_prospect :
    (g.reductionRules.space.prospect form).isGoal = true ↔
      Strategy.bottomUp.IsGoal g form.view := by
  have hfinds : g.Finds form (g.reductionRules.space.prospect form) := finds_prospect
  generalize g.reductionRules.space.prospect form = prospect at hfinds
  cases hfinds with
  | goal h => simp [Prospect.isGoal, Strategy.IsGoal, Form.view, h]
  | choice hne | deadEnd hne => simp [Prospect.isGoal, Strategy.IsGoal, Form.view, hne]

lemma Grammar.action_giveUp_of_unmarked {reason : Action}
    (h : (g.reductionRules.giveUp form reason).success = none) :
    (g.reductionRules.giveUp form reason).action = .inconclusive := by
  rw [ReductionRules.giveUp] at h ⊢
  split_ifs at h ⊢
  rfl

lemma Grammar.ReplacesTo.undecided {state : SearchState Form Reduction}
    (h : ReplacesTo g.lexicalClasses limit
      ⟨tokens, [], Trace.empty.push { action := .start, form := tokens }⟩ state) :
    Undecided state.trace.toList :=
  h.forall_steps (fun _ _ _ => rfl) (by simp)

theorem Grammar.searchReduction_decides (g : Grammar) (input : String) (limit : Nat) :
    ∃ before last, g.searchReduction input limit = before.push last ∧
      Strategy.bottomUp.Decides g limit before last := by
  cases htokens : scan .char input with
  | error e =>
    rw [searchReduction, htokens]
    refine ⟨_, _, rfl, undecided_nil, ?_, fun hnone => by cases hnone⟩
    simp [Strategy.IsGoal, Step.view]
  | ok tokens =>
    obtain ⟨state, last, hreplaces, hreach, hends⟩ := g.exists_ends_searchReduction limit htokens
    obtain ⟨before, final, htrace, hview, hdecides⟩ := hends.exists_decides
      g.isDisplayed_reductions marksGoals_reductions
      (hreach.undecided marksGoals_reductions hreplaces.undecided)
    refine ⟨before, final, htrace, hdecides.undecided, ?_, ?_⟩
    · rw [hview, hdecides.success, isGoal_prospect]
    · intro hnone
      rcases hdecides.unmarked hnone with hlimit | ⟨reason, rfl⟩
      · exact .inl hlimit
      · exact .inr ⟨rfl, action_giveUp_of_unmarked hnone⟩

/-- The last step of every run decides, alone and rightly. -/
theorem Strategy.run_decides (strategy : Strategy) (g : Grammar) (input : String) (limit : Nat) :
    ∃ before last, strategy.run g input limit = before.push last ∧
      strategy.Decides g limit before last := by
  cases strategy with
  | topDown => exact g.searchDerivation_decides input limit
  | bottomUp => exact g.searchReduction_decides input limit

end GrammarTrace
