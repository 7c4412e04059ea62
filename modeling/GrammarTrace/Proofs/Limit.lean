import GrammarTrace.Proofs.Decision
import GrammarTrace.Proofs.Search.Termination

/-!
# Runs with a larger limit

The limit of a run says only when to stop. With a larger one the run is the same, unless it was
stopped at its limit, and then it goes on from there (`Strategy.run_extends`). So no limit makes a
run accept what it rejects with another.
-/

namespace GrammarTrace

/-- Whether a run was stopped at its limit. -/
def Trace.IsStopped (trace : Trace) : Prop :=
  ∃ (last : Step) (limit : Nat), trace.last? = some last ∧ last.action = .stepLimit limit

/-- Whether a run was stopped at its limit where another one goes on. -/
def Trace.IsOvertakenBy (trace longer : Trace) : Prop :=
  ∃ (before : Trace) (last : Step) (limit : Nat), trace = before.push last ∧
    last.action = .stepLimit limit ∧ last.success = none ∧ before.toList <+: longer.toList

/-- A search space in which what ends a search other than its limit is never shown as a stop at a
limit. -/
structure SearchSpace.StopsAtLimitOnly {P A : Type} (space : SearchSpace P A) : Prop where
  step (p : P) (action : Action) : (space.step p action).action = action
  breakdown {p : P} {reason : Action} (bound : Nat) :
    space.prospect p = .breakdown reason → reason ≠ .stepLimit bound
  deadEnd {p : P} {reason : Action} (bound : Nat) :
    space.prospect p = .deadEnd reason → (space.giveUp p reason).action ≠ .stepLimit bound
  exhausted (p : P) (bound : Nat) :
    (space.giveUp p .alternativesExhausted).action ≠ .stepLimit bound

variable {P A : Type} {space : SearchSpace P A} {s next : SearchState P A} {p : P} {g : Grammar}
  {trace longer : Trace} {step : Step} {limit bound : Nat} {input : String} {tokens : Form}
  {classes : List (String × List Production)} {done rest : Form}

lemma Trace.IsOvertakenBy.trans {later : Trace} (h : trace.IsOvertakenBy longer)
    (hlater : longer.toList <+: later.toList) : trace.IsOvertakenBy later := by
  obtain ⟨before, last, limit, htrace, haction, hmark, hbefore⟩ := h
  exact ⟨before, last, limit, htrace, haction, hmark, hbefore.trans hlater⟩

lemma Trace.IsOvertakenBy.isStopped (h : trace.IsOvertakenBy longer) : trace.IsStopped := by
  obtain ⟨before, last, limit, rfl, haction, -, -⟩ := h
  exact ⟨last, limit, last?_push .., haction⟩

lemma Trace.IsOvertakenBy.verdict_eq (h : trace.IsOvertakenBy longer) :
    trace.verdict = .unresolved := by
  obtain ⟨before, last, limit, rfl, -, hmark, -⟩ := h
  rw [verdict_push, hmark, Verdict.ofMark]

lemma Trace.IsOvertakenBy.dropLast_isPrefix (h : trace.IsOvertakenBy longer) :
    trace.toList.dropLast <+: longer.toList := by
  obtain ⟨before, last, limit, rfl, -, -, hbefore⟩ := h
  rwa [toList_push, List.dropLast_concat]

/-! ### Searches -/

/-- A search with a larger limit makes the same moves until the smaller limit is reached. -/
lemma SearchSpace.run_of_le (hspace : space.IsLabelled) (hmarks : space.MarksGoals)
    (hle : limit ≤ bound) : space.run bound s = space.run limit s ∨
      (space.run limit s).IsOvertakenBy (space.run bound s) := by
  induction s using SearchSpace.run.induct space limit with
  | case1 s prospect hstop =>
    right
    rw [run_of_limit hstop.1 hstop.2]
    exact ⟨s.trace, _, limit, rfl, hspace.step .., hmarks.step .., grows_run⟩
  | case2 s prospect hgo trace hproceed =>
    left
    rw [run_of_ended hgo hproceed, run_of_ended (fun h => hgo ⟨hle.trans h.1, h.2⟩) hproceed]
  | case3 s prospect hgo next hproceed ih =>
    rw [run_of_running hgo hproceed, run_of_running (fun h => hgo ⟨hle.trans h.1, h.2⟩) hproceed]
    exact ih

/-- A search that ends before its limit is reached was not stopped at it. -/
lemma SearchSpace.Ends.not_isStopped (hspace : space.StopsAtLimitOnly)
    (h : space.Ends limit s trace) (hs : s.trace.size < limit) : ¬trace.IsStopped := by
  rintro ⟨step, bound, hstep, haction⟩
  cases h with
  | limit hlimit => omega
  | goal =>
    obtain rfl := Trace.eq_of_last hstep
    have hsuccess : (space.step s.position .success).action = .stepLimit bound := haction
    rw [hspace.step] at hsuccess
    cases hsuccess
  | @breakdown reason h =>
    obtain rfl := Trace.eq_of_last hstep
    have hreason : (space.step s.position reason).action = .stepLimit bound := haction
    rw [hspace.step] at hreason
    exact hspace.breakdown bound h hreason
  | deadEnd h =>
    obtain rfl := Trace.eq_of_last hstep
    exact hspace.deadEnd bound h haction
  | exhausted =>
    obtain rfl := Trace.eq_of_last hstep
    exact hspace.exhausted _ bound haction

/-- From a position that terminates, a search with some limit is not stopped at it. -/
lemma SearchSpace.Terminates.exists_not_isStopped (hp : space.Terminates p)
    (hspace : space.StopsAtLimitOnly) (trace : Trace) :
    ∃ limit, ¬(space.run limit ⟨p, [], trace⟩).IsStopped := by
  obtain ⟨limit, last, -, hends, hlast⟩ := hp.exists_ends_below trace
  exact ⟨limit, hends.not_isStopped hspace hlast⟩

/-! ### Replacements of terminals -/

lemma Grammar.grows_normalizeFrom :
    trace.toList <+: (normalizeFrom classes limit done rest trace).trace.toList := by
  induction rest generalizing done trace with
  | nil => exact List.prefix_rfl
  | cons symbol rest ih =>
    rw [normalizeFrom]
    split
    · exact ih
    · split_ifs
      · exact Trace.toList_isPrefix_push
      · exact Trace.toList_isPrefix_push.trans ih

/-- With a larger limit the same terminals are replaced until the smaller limit is reached. -/
lemma Grammar.normalizeFrom_of_le (hle : limit ≤ bound) :
    (∃ state, normalizeFrom classes limit done rest trace = .running state ∧
      normalizeFrom classes bound done rest trace = .running state) ∨
    ∃ stopped, normalizeFrom classes limit done rest trace = .ended stopped ∧
      stopped.IsOvertakenBy (normalizeFrom classes bound done rest trace).trace := by
  induction rest generalizing done trace with
  | nil => exact .inl ⟨_, rfl, rfl⟩
  | cons symbol rest ih =>
    cases hclass : classOf? classes symbol with
    | none =>
      simp only [normalizeFrom, hclass]
      exact ih
    | some name =>
      by_cases hlimit : limit ≤ trace.size
      · right
        refine ⟨_, by simp only [normalizeFrom, hclass, if_pos hlimit]; rfl, ?_⟩
        exact ⟨trace, _, limit, rfl, rfl, rfl, grows_normalizeFrom⟩
      · have hbound : ¬bound ≤ trace.size := fun h => hlimit (hle.trans h)
        simp only [normalizeFrom, hclass, if_neg hlimit, if_neg hbound]
        exact ih

lemma Grammar.normalize_of_le (tokens : Form) (hle : limit ≤ bound) :
    (∃ state, g.normalize limit tokens = .running state ∧
      g.normalize bound tokens = .running state) ∨
    ∃ stopped, g.normalize limit tokens = .ended stopped ∧
      stopped.IsOvertakenBy (g.normalize bound tokens).trace :=
  normalizeFrom_of_le hle

/-- A limit that leaves room for a step for every symbol lets all terminals be replaced. -/
lemma Grammar.exists_normalizeFrom (h : trace.size + rest.length ≤ limit) :
    ∃ form replaced,
      normalizeFrom classes limit done rest trace = .running ⟨form, [], replaced⟩ := by
  induction rest generalizing done trace with
  | nil => exact ⟨_, _, rfl⟩
  | cons symbol rest ih =>
    rw [List.length_cons] at h
    cases hclass : classOf? classes symbol with
    | none =>
      simp only [normalizeFrom, hclass]
      exact ih (by omega)
    | some name =>
      have hlimit : ¬limit ≤ trace.size := by omega
      simp only [normalizeFrom, hclass, if_neg hlimit]
      apply ih
      rw [Trace.size_push]
      omega

lemma Grammar.exists_normalize (g : Grammar) (tokens : Form) :
    ∃ enough form replaced, ∀ limit, enough ≤ limit →
      g.normalize limit tokens = .running ⟨form, [], replaced⟩ := by
  have hroom : ∃ form replaced,
      g.normalize (1 + tokens.length) tokens = .running ⟨form, [], replaced⟩ :=
    exists_normalizeFrom (by simp)
  obtain ⟨form, replaced, henough⟩ := hroom
  refine ⟨1 + tokens.length, form, replaced, fun limit hle => ?_⟩
  rcases g.normalize_of_le tokens hle with ⟨state, hstate, hlimit⟩ | ⟨stopped, hstopped, -⟩
  · rw [hlimit, ← hstate, henough]
  · rw [henough] at hstopped
    cases hstopped

/-! ### Strategies -/

lemma Grammar.grows_searchReduction (htokens : scan .char input = .ok tokens) :
    (g.normalize limit tokens).trace.toList <+: (g.searchReduction input limit).toList := by
  rw [searchReduction, htokens]
  dsimp only
  cases g.normalize limit tokens with
  | ended trace => exact List.prefix_rfl
  | running state => exact SearchSpace.grows_run

lemma Grammar.searchReduction_of_le (hle : limit ≤ bound) :
    g.searchReduction input bound = g.searchReduction input limit ∨
      (g.searchReduction input limit).IsOvertakenBy (g.searchReduction input bound) := by
  cases htokens : scan .char input with
  | error e =>
    left
    simp only [searchReduction, htokens]
  | ok tokens =>
    rcases g.normalize_of_le tokens hle with
      ⟨state, hlimit, hbound⟩ | ⟨stopped, hlimit, hovertaken⟩
    · simp only [searchReduction, htokens, hlimit, hbound]
      exact SearchSpace.run_of_le g.isLabelled_reductions g.marksGoals_reductions hle
    · right
      have hstopped : g.searchReduction input limit = stopped := by
        simp only [searchReduction, htokens, hlimit]
      rw [hstopped]
      exact hovertaken.trans (grows_searchReduction htokens)

lemma Strategy.run_of_le (strategy : Strategy) (g : Grammar) (input : String)
    (hle : limit ≤ bound) :
    strategy.run g input bound = strategy.run g input limit ∨
      (strategy.run g input limit).IsOvertakenBy (strategy.run g input bound) := by
  cases strategy with
  | topDown => exact SearchSpace.run_of_le g.isLabelled_derivations g.marksGoals_derivations hle
  | bottomUp => exact Grammar.searchReduction_of_le hle

/-- With a larger limit a run that was not stopped is the same. -/
lemma Strategy.run_eq_of_not_isStopped {strategy : Strategy}
    (h : ¬(strategy.run g input limit).IsStopped) (hle : limit ≤ bound) :
    strategy.run g input bound = strategy.run g input limit := by
  rcases strategy.run_of_le g input hle with heq | hovertaken
  · exact heq
  · exact absurd hovertaken.isStopped h

lemma Strategy.Decides.answers {strategy : Strategy} {before : Trace} {last : Step}
    (h : strategy.Decides g limit before last) (hstopped : ¬(before.push last).IsStopped) :
    (before.push last).verdict = .accepted ∨ (before.push last).verdict = .rejected ∨
      (strategy = .bottomUp ∧ last.action = .inconclusive) := by
  rw [Trace.verdict_push]
  cases hmark : last.success with
  | some mark => cases mark <;> simp [Verdict.ofMark]
  | none =>
    rcases h.unmarked hmark with ⟨haction, -⟩ | hinconclusive
    · exact absurd ⟨last, limit, Trace.last?_push .., haction⟩ hstopped
    · exact .inr (.inr hinconclusive)

/-- An answer stays the same with every larger limit. -/
lemma Strategy.verdict_of_le (strategy : Strategy) (hle : limit ≤ bound)
    (h : (strategy.run g input limit).verdict ≠ .unresolved) :
    (strategy.run g input bound).verdict = (strategy.run g input limit).verdict := by
  rcases strategy.run_of_le g input hle with heq | hovertaken
  · rw [heq]
  · exact absurd hovertaken.verdict_eq h

/-- A larger limit changes nothing of a run that was not stopped, and one that was goes on from
where it was stopped. No two limits give contrary answers. -/
theorem Strategy.run_extends (strategy : Strategy) (g : Grammar) (input : String) :
    (∀ limit bound, limit ≤ bound →
      (¬(strategy.run g input limit).IsStopped →
        strategy.run g input bound = strategy.run g input limit) ∧
      ((strategy.run g input limit).IsStopped →
        (strategy.run g input limit).toList.dropLast <+: (strategy.run g input bound).toList)) ∧
    ∀ limit bound, ¬((strategy.run g input limit).verdict = .accepted ∧
      (strategy.run g input bound).verdict = .rejected) := by
  constructor
  · intro limit bound hle
    rcases strategy.run_of_le g input hle with heq | hovertaken
    · refine ⟨fun _ => heq, fun _ => ?_⟩
      rw [heq]
      exact List.dropLast_prefix _
    · exact ⟨fun h => absurd hovertaken.isStopped h, fun _ => hovertaken.dropLast_isPrefix⟩
  · rintro limit bound ⟨haccepted, hrejected⟩
    rcases Nat.le_total limit bound with hle | hle
    · have hsame := strategy.verdict_of_le hle (by rw [haccepted]; decide)
      rw [hrejected, haccepted] at hsame
      cases hsame
    · have hsame := strategy.verdict_of_le hle (by rw [hrejected]; decide)
      rw [hrejected, haccepted] at hsame
      cases hsame

theorem Strategy.sums_extended :
    ((Strategy.topDown.run Grammar.sums "1+0" 3).IsStopped ∧
      (Strategy.topDown.run Grammar.sums "1+0" 3).toList.dropLast <+:
        (Strategy.topDown.run Grammar.sums "1+0" 100).toList) ∧
    (¬(Strategy.bottomUp.run Grammar.sums "1+0" 100).IsStopped ∧
      Strategy.bottomUp.run Grammar.sums "1+0" 1000 =
        Strategy.bottomUp.run Grammar.sums "1+0" 100) := by
  have hstopped : (Strategy.topDown.run Grammar.sums "1+0" 3).IsStopped := by
    have hlast : (Strategy.topDown.run Grammar.sums "1+0" 3).last?.map Step.action =
        some (.stepLimit 3) := by decide +kernel
    obtain ⟨last, hlast, haction⟩ := Option.map_eq_some_iff.mp hlast
    exact ⟨last, 3, hlast, haction⟩
  have hgoal : ¬(Strategy.bottomUp.run Grammar.sums "1+0" 100).IsStopped := by
    have hlast : (Strategy.bottomUp.run Grammar.sums "1+0" 100).last?.map Step.action =
        some .success := by decide +kernel
    rintro ⟨last, limit, hget, haction⟩
    rw [hget, Option.map_some, haction] at hlast
    cases hlast
  exact ⟨⟨hstopped, ((Strategy.topDown.run_extends _ _).1 3 100 (by decide)).2 hstopped⟩,
    hgoal, ((Strategy.bottomUp.run_extends _ _).1 100 1000 (by decide)).1 hgoal⟩

end GrammarTrace
