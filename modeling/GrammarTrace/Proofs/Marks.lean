import GrammarTrace.Proofs.Repetitions
import GrammarTrace.Report.Listing

/-!
# Marks in a listing

The listing of a run marks the candidate that a step takes by its value, so all candidates with that
value have the mark. The one that is taken is among them, and it is the only one just if its rule
has the production once (`Strategy.run_marks`).
-/

namespace GrammarTrace

/-! ### The lines of a step -/

/-- The lines of a step above those of its candidates. -/
def Step.heading (step : Step) (id : Nat) : String :=
  { step with candidates := [] }.listing id
    ++ if step.candidates.isEmpty then "" else "    candidates:\n"

/-- The lines of the candidates of a step. -/
def Step.candidateLines (step : Step) : List String :=
  step.candidates.map (Candidate.line step.selected)

/-- Whether a line of a candidate has the mark. -/
def HasMark (line : String) : Prop := "      * ".toList <+: line.toList

instance (line : String) : Decidable (HasMark line) := inferInstanceAs (Decidable (_ <+: _))

/-- Whether the line of the candidate numbered `i` has the mark. -/
def Step.MarksAt (step : Step) (i : Nat) : Prop :=
  ∃ line, step.candidateLines[i]? = some line ∧ HasMark line

variable {step : Step} {i k t : Nat} {candidate taken : Candidate}

lemma Step.listing_eq (step : Step) (id : Nat) :
    step.listing id = step.heading id ++ String.join step.candidateLines := by
  rw [heading, candidateLines, listing, listing, display, display]
  dsimp only
  rw [List.isEmpty_nil, if_pos rfl, String.append_empty]
  split_ifs with hempty
  · rw [List.isEmpty_iff.mp hempty, List.map_nil, String.join_nil, String.append_empty,
      String.append_empty]
  · rw [← String.append_assoc]

lemma Candidate.hasMark_line {selected : Option Candidate} :
    HasMark (candidate.line selected) ↔ selected = some candidate := by
  have hline (mark : String) :
      ("      " ++ mark ++ " " ++ candidate.listing ++ "\n").toList =
        ("      ".toList ++ mark.toList ++ " ".toList) ++ (candidate.listing ++ "\n").toList := by
    simp only [String.toList_append, List.append_assoc]
  rw [HasMark, line, hline]
  split_ifs with h
  · exact iff_of_true ⟨_, rfl⟩ h
  · refine iff_of_false (fun hmark => ?_) h
    have hblank : "      * ".toList <+: "      ".toList ++ " ".toList ++ " ".toList :=
      List.prefix_of_prefix_length_le hmark (List.prefix_append ..) (by decide)
    exact absurd hblank (by decide)

/-- The candidates that are equal to the selected one have the mark. -/
lemma Step.marksAt_iff (hselected : step.selected = some taken) :
    step.MarksAt i ↔ step.candidates[i]? = some taken := by
  simp only [MarksAt, candidateLines, List.getElem?_map, Option.map_eq_some_iff, hselected]
  constructor
  · rintro ⟨_, ⟨candidate, hget, rfl⟩, hmark⟩
    rw [hget, Candidate.hasMark_line.mp hmark]
  · intro hget
    exact ⟨_, ⟨taken, hget, rfl⟩, Candidate.hasMark_line.mpr rfl⟩

lemma Step.not_marksAt (hselected : step.selected = none) : ¬step.MarksAt i := by
  rintro ⟨line, hline, hmark⟩
  rw [candidateLines, List.getElem?_map, Option.map_eq_some_iff] at hline
  obtain ⟨candidate, -, rfl⟩ := hline
  rw [Candidate.hasMark_line, hselected] at hmark
  cases hmark

/-- One of the marks stands alone just if the candidate is listed once. -/
lemma Step.marksAt_iff_eq (hselected : step.selected = some taken)
    (hget : step.candidates[k]? = some taken) :
    (∀ i, step.MarksAt i ↔ i = k) ↔ step.candidates.count taken = 1 := by
  rw [← forall_getElem?_iff hget]
  exact forall_congr' fun i => iff_congr (marksAt_iff hselected) Iff.rfl

/-! ### What a step takes -/

/-- Which alternative of which choice a step takes that is recorded after some others: the first one
where the step makes the choice, and one more at each retry. -/
inductive Step.Takes (earlier : List Step) (step : Step) : Nat → Nat → Prop where
  | choice (hrole : step.action.role = .choice) : Takes earlier step earlier.length 0
  | retry {t : Nat} (hrole : step.action.role = .retry) (hto : step.backtrackTo = some t) :
      Takes earlier step t (returns .retry earlier t + 1)

variable {P A : Type} {space : SearchSpace P A} {view : P → View} {initial : Option View}
  {earlier : List Step} {I : P → Prop} {limit : Nat}

lemma Step.Follows.exists_takes (h : step.Follows earlier)
    (hrole : step.action.role = .choice ∨ step.action.role = .retry) :
    ∃ t k taken, step.Takes earlier t k ∧ step.candidates[k]? = some taken ∧
      step.selected = some taken := by
  cases h with
  | plain hplain => exact absurd hrole (not_or.mpr ⟨hplain.ne_choice, hplain.ne_retry⟩)
  | choice hchoice htaken hselected => exact ⟨_, _, _, .choice hchoice, htaken, hselected⟩
  | retry hretry hto _ hcandidates htaken hselected =>
    exact ⟨_, _, _, .retry hretry hto, hcandidates ▸ htaken, hselected⟩
  | abandonment habandon => simp [habandon] at hrole

/-- A step that takes one of the alternatives at what stood before the step numbered `t`, and lists
all of them. -/
inductive SearchSpace.Picks (space : SearchSpace P A) (view : P → View) (initial : Option View)
    (earlier : List Step) (t : Nat) (step : Step) : Prop where
  | intro {p : P} {first a : A} {others : List A}
      (hbefore : viewBefore initial earlier t = some (view p))
      (h : space.prospect p = .choice first others) (ha : a ∈ first :: others)
      (hcandidates : step.candidates = (first :: others).map (space.candidate p))
      (hselected : step.selected = some (space.candidate p a))
      (hview : step.view = view (space.take p a))

lemma Step.Takes.role (h : step.Takes earlier t k) :
    step.action.role = .choice ∨ step.action.role = .retry := by
  cases h with
  | choice hrole => exact .inl hrole
  | retry hrole => exact .inr hrole

lemma Step.Takes.eq_length (h : step.Takes earlier t k) (hrole : step.action.role = .choice) :
    t = earlier.length := by
  cases h with
  | choice => rfl
  | retry hretry => simp [hrole] at hretry

lemma Step.Takes.backtrackTo_eq (h : step.Takes earlier t k) (hrole : step.action.role = .retry) :
    step.backtrackTo = some t := by
  cases h with
  | choice hchoice => simp [hrole] at hchoice
  | retry _ hto => exact hto

lemma Action.isEnding_of_role {action : Action} (h : action.role = .choice ∨ action.role = .retry) :
    action.isEnding = false := by
  cases action <;> simp_all [role, isEnding]

lemma SearchSpace.Replays.picks (hspace : space.IsDisplayed view)
    (h : space.Replays view initial earlier step) (htakes : step.Takes earlier t k) :
    space.Picks view initial earlier t step := by
  have hrole := htakes.role
  cases h with
  | forced _ h => simp [hspace.step, hspace.forced h] at hrole
  | @choice p first others hbefore h =>
    obtain rfl := htakes.eq_length (hspace.role_choiceStep p first others)
    exact .intro hbefore h List.mem_cons_self rfl rfl (hspace.view_step ..)
  | @retry r hr =>
    obtain rfl : r.choice.step = t :=
      Option.some.inj (htakes.backtrackTo_eq (hspace.role_retryStep r))
    obtain ⟨first, others, hprospect, halternatives⟩ := hr.alternatives
    have hcandidates : (space.retryStep r).candidates =
        (first :: others).map (space.candidate r.choice.snapshot) := halternatives ▸ rfl
    exact .intro hr.snapshot hprospect (halternatives ▸ r.alternative_mem) hcandidates rfl
      (hspace.view_step ..)
  | @abandonment c => simp [hspace.role_abandonStep c] at hrole
  | ending hending => simp [Action.isEnding_of_role hrole] at hending

/-! ### Steps that take nothing -/

/-- A step that takes no alternative shows none as selected. -/
lemma SearchSpace.Records.selected_eq_none (hspace : space.IsLabelled)
    (hstep : ∀ p action, (space.step p action).selected = none)
    (hgiveUp : ∀ p reason, (space.giveUp p reason).selected = none)
    (h : space.Records I limit step) (hchoice : step.action.role ≠ .choice)
    (hretry : step.action.role ≠ .retry) : step.selected = none := by
  cases h with
  | choice => exact absurd (hspace.role_choiceStep ..) hchoice
  | retry => exact absurd (hspace.role_retryStep _) hretry
  | forced | limit => exact hstep ..
  | abandon => exact hstep ..
  | goal => exact hstep ..
  | breakdown => exact hstep ..
  | deadEnd | exhausted => exact hgiveUp ..

/-! ### Strategies -/

/-- What stands before the first step of a run. A reduction shows what it begins with in its first
step. -/
def Strategy.initialView (strategy : Strategy) (g : Grammar) (input : String) : Option View :=
  match strategy with
  | .topDown => g.derivationView input
  | .bottomUp => none

/-- What a run makes of a view when it takes a candidate. -/
def Strategy.TakesInto (strategy : Strategy) (g : Grammar) : Candidate → View → View → Prop :=
  match strategy with
  | .topDown => g.ExpandsInto
  | .bottomUp => g.ReducesInto

/-- A step that applies the candidate that it shows as selected to what stood before the step
numbered `t`. It lists the candidate as often as the rule has the production. -/
inductive Strategy.Applies (strategy : Strategy) (g : Grammar) (input : String)
    (earlier : List Step) (t : Nat) (step : Step) : Prop where
  | intro {taken : Candidate} {before : View} (hselected : step.selected = some taken)
      (hbefore : viewBefore (strategy.initialView g input) earlier t = some before)
      (hview : strategy.TakesInto g taken before step.view)
      (hcount : step.candidates.count taken = g.multiplicity taken)

/-- Whether a step applies what it takes. -/
def Strategy.AppliesTaken (strategy : Strategy) (g : Grammar) (input : String)
    (earlier : List Step) (step : Step) : Prop :=
  ∀ t k, step.Takes earlier t k → strategy.Applies g input earlier t step

/-- What a step of a run marks in the listing that is recorded after some others. If it takes the
alternative numbered `k` of a choice, it marks this one and those that are equal to it, so that the
mark stands alone just if the rule has the production once. If it takes none, it marks none. -/
inductive Strategy.Marks (strategy : Strategy) (g : Grammar) (input : String)
    (earlier : List Step) (step : Step) : Prop where
  | taken {t k : Nat} {taken : Candidate} {before : View} (htakes : step.Takes earlier t k)
      (hget : step.candidates[k]? = some taken)
      (hbefore : viewBefore (strategy.initialView g input) earlier t = some before)
      (hview : strategy.TakesInto g taken before step.view)
      (hmarks : ∀ i, step.MarksAt i ↔ step.candidates[i]? = some taken)
      (halone : (∀ i, step.MarksAt i ↔ i = k) ↔ g.multiplicity taken = 1)
  | untaken (hchoice : step.action.role ≠ .choice) (hretry : step.action.role ≠ .retry)
      (hmarks : ∀ i, ¬step.MarksAt i)

variable {g : Grammar} {input : String} {strategy : Strategy} {tokens : Form} {trace : Trace}

lemma Strategy.marks_of_applies (hfollows : step.Follows earlier)
    (happlies : strategy.AppliesTaken g input earlier step)
    (hrole : step.action.role = .choice ∨ step.action.role = .retry) :
    strategy.Marks g input earlier step := by
  obtain ⟨t, k, taken, htakes, hget, hselected⟩ := hfollows.exists_takes hrole
  obtain ⟨hselected', hbefore, hview, hcount⟩ := happlies t k htakes
  obtain rfl := Option.some.inj (hselected.symm.trans hselected')
  exact .taken htakes hget hbefore hview (fun _ => Step.marksAt_iff hselected)
    (hcount ▸ Step.marksAt_iff_eq hselected hget)

/-! ### Derivations -/

lemma Grammar.applies_of_picks_derivations
    (h : g.derivations.Picks Derivation.view (g.derivationView input) earlier t step) :
    Strategy.topDown.Applies g input earlier t step := by
  obtain @⟨d, first, p, others, hbefore, h, hp, hcandidates, hselected, hview⟩ := h
  refine .intro hselected hbefore (hview ▸ expandsInto_of_choice h hp) ?_
  rw [hcandidates]
  cases Derivation.finds_of_eq h with
  | @choice name _ _ rest unread halternatives =>
    have hfront : Derivation.front ⟨.nonterminal name :: rest, unread⟩ = name :=
      Derivation.front_nonterminal
    have hcount := count_expansions halternatives p.text
    rwa [← hfront] at hcount

lemma Grammar.applies_searchDerivation (g : Grammar) (input : String) (limit : Nat) :
    Obeys (Strategy.topDown.AppliesTaken g input) (g.searchDerivation input limit).toList := by
  have hview : some (g.derivationOf input).view = g.derivationView input := by
    simp [Derivation.view, derivationOf, derivationView]
  have hstart : g.derivations.Replayed Derivation.view (g.derivationView input)
      (Strategy.topDown.AppliesTaken g input) ⟨g.derivationOf input, [], .empty⟩ :=
    ⟨obeys_nil, hview.symm, hview.symm, List.forall_mem_nil _⟩
  refine (hstart.completes_run g.isDisplayed_derivations ?_ limit).obeys
  intro earlier step hreplays t k htakes
  exact applies_of_picks_derivations (hreplays.picks g.isDisplayed_derivations htakes)

lemma Grammar.selected_searchDerivation (hmem : step ∈ (g.searchDerivation input limit).toList)
    (hchoice : step.action.role ≠ .choice) (hretry : step.action.role ≠ .retry) :
    step.selected = none := by
  rcases SearchSpace.mem_run SearchSpace.preserves_true (SearchSpace.sound_of_start trivial)
    hmem with hempty | hrecords
  · cases hempty
  · exact hrecords.selected_eq_none g.isLabelled_derivations (fun _ _ => rfl) (fun _ _ => rfl)
      hchoice hretry

/-! ### Reductions -/

lemma Grammar.applies_of_picks_reductions
    (h : g.reductionRules.space.Picks Form.view none earlier t step) :
    Strategy.bottomUp.Applies g input earlier t step := by
  obtain @⟨form, first, r, others, hbefore, h, hr, hcandidates, hselected, hview⟩ := h
  refine .intro hselected hbefore (hview ▸ reducesInto_of_choice h hr) ?_
  rw [hcandidates]
  cases finds_of_eq h with
  | choice _ hfound =>
    rw [← hfound] at hr ⊢
    exact count_reductions hr

lemma Step.appliesTaken_of_other (hrole : step.action.role = .other) :
    strategy.AppliesTaken g input earlier step := by
  intro t k htakes
  have htaken := htakes.role
  simp [hrole] at htaken

lemma Grammar.applies_searchReduction (g : Grammar) (input : String) (limit : Nat) :
    Obeys (Strategy.bottomUp.AppliesTaken g input) (g.searchReduction input limit).toList := by
  cases htokens : scan .char input with
  | error e =>
    rw [searchReduction, htokens, Trace.toList_push]
    exact obeys_nil.push (Step.appliesTaken_of_other rfl)
  | ok tokens =>
    obtain ⟨state, last, hreplaces, hreach, hends⟩ := g.exists_ends_searchReduction limit htokens
    -- nothing is taken before the search has its form
    have hearlier : ∀ step ∈ state.trace.toList, step.action.role = .other :=
      hreplaces.forall_steps (fun _ _ _ => rfl) (by simp [Action.role])
    have hstate : g.reductionRules.space.Replayed Form.view none
        (Strategy.bottomUp.AppliesTaken g input) state :=
      { hreplaces.replayed replayed_start with
        obeys := fun _ _ hget =>
          Step.appliesTaken_of_other (hearlier _ (List.mem_of_getElem? hget)) }
    have hlaw : ∀ ⦃earlier step⦄, g.reductionRules.space.Replays Form.view none earlier step →
        Strategy.bottomUp.AppliesTaken g input earlier step := fun _ _ hreplays t k htakes =>
      applies_of_picks_reductions (hreplays.picks g.isDisplayed_reductions htakes)
    exact (hends.completes g.isDisplayed_reductions hlaw
      (hreach.replayed g.isDisplayed_reductions hlaw hstate)).obeys

lemma Grammar.selected_giveUp {form : Form} {reason : Action} :
    (g.reductionRules.giveUp form reason).selected = none := by
  rw [ReductionRules.giveUp]
  split_ifs <;> rfl

lemma Grammar.selected_searchReduction (hmem : step ∈ (g.searchReduction input limit).toList)
    (hchoice : step.action.role ≠ .choice) (hretry : step.action.role ≠ .retry) :
    step.selected = none := by
  cases htokens : scan .char input with
  | error e =>
    rw [searchReduction, htokens, Trace.mem_push] at hmem
    rcases hmem with hempty | rfl
    · cases hempty
    · rfl
  | ok tokens =>
    obtain ⟨state, last, hreplaces, hreach, hends⟩ := g.exists_ends_searchReduction limit htokens
    have hearlier : ∀ step ∈ state.trace.toList, step.selected = none :=
      hreplaces.forall_steps (fun _ _ _ => rfl) (by simp)
    have hsound : g.reductionRules.space.Sound (fun _ => True) state :=
      ⟨trivial, fun c hc =>
        ⟨trivial, ((hreplaces.replayed replayed_start).choices c hc).alternatives⟩⟩
    obtain ⟨more, htrace, hmore⟩ := (hreach.extends SearchSpace.preserves_true hsound).trans
      (hends.extends (hreach.sound SearchSpace.preserves_true hsound))
    rw [htrace, List.mem_append] at hmem
    rcases hmem with hmem | hmem
    · exact hearlier step hmem
    · exact (hmore step hmem).selected_eq_none g.isLabelled_reductions (fun _ _ => rfl)
        (fun _ _ => selected_giveUp) hchoice hretry

/-! ### Runs -/

lemma Strategy.coherent_run (strategy : Strategy) (g : Grammar) (input : String) (limit : Nat) :
    Coherent (strategy.run g input limit).toList := by
  cases strategy with
  | topDown =>
    have hplain : ∀ step ∈ Trace.empty.toList, step.action.role.IsPlain := List.forall_mem_nil _
    obtain ⟨_, hclosed⟩ :=
      SearchSpace.closed_run g.isLabelled_derivations hplain limit (g.derivationOf input)
    exact hclosed.linked.coherent
  | bottomUp =>
    obtain ⟨_, hclosed⟩ := g.exists_closed_searchReduction input limit
    exact hclosed.linked.coherent

lemma Strategy.applies_run (strategy : Strategy) (g : Grammar) (input : String) (limit : Nat) :
    Obeys (strategy.AppliesTaken g input) (strategy.run g input limit).toList := by
  cases strategy with
  | topDown => exact g.applies_searchDerivation input limit
  | bottomUp => exact g.applies_searchReduction input limit

lemma Strategy.selected_run (hmem : step ∈ (strategy.run g input limit).toList)
    (hchoice : step.action.role ≠ .choice) (hretry : step.action.role ≠ .retry) :
    step.selected = none := by
  cases strategy with
  | topDown => exact Grammar.selected_searchDerivation hmem hchoice hretry
  | bottomUp => exact Grammar.selected_searchReduction hmem hchoice hretry

lemma Trace.listing_eq (trace : Trace) (input : String) :
    trace.listing input = "== " ++ input ++ " ==\n"
      ++ String.join (trace.toList.zipIdx.map fun step =>
        step.1.heading step.2 ++ String.join step.1.candidateLines)
      ++ "Result: " ++ trace.verdict.word ++ " after " ++ toString trace.size ++ " steps ("
      ++ toString trace.backtrackCount ++ " backtracking)\n" := by
  have hsteps : (fun step : Step × Nat => step.1.listing step.2) =
      fun step => step.1.heading step.2 ++ String.join step.1.candidateLines :=
    funext fun step => step.1.listing_eq step.2
  rw [listing, hsteps]

/-- The listing of a run shows the lines of the candidates of every step, and every step marks the
alternative that it takes. The mark stands alone just if the rule has the production once, and a
step that takes no alternative has no mark. -/
theorem Strategy.run_marks (strategy : Strategy) (g : Grammar) (input : String) (limit : Nat) :
    ((strategy.run g input limit).listing input = "== " ++ input ++ " ==\n"
      ++ String.join ((strategy.run g input limit).toList.zipIdx.map fun step =>
        step.1.heading step.2 ++ String.join step.1.candidateLines)
      ++ "Result: " ++ (strategy.run g input limit).verdict.word ++ " after "
      ++ toString (strategy.run g input limit).size ++ " steps ("
      ++ toString (strategy.run g input limit).backtrackCount ++ " backtracking)\n") ∧
    Obeys (strategy.Marks g input) (strategy.run g input limit).toList := by
  refine ⟨Trace.listing_eq .., ?_⟩
  intro id step hget
  by_cases hrole : step.action.role = .choice ∨ step.action.role = .retry
  · exact marks_of_applies (strategy.coherent_run g input limit id step hget)
      (strategy.applies_run g input limit id step hget) hrole
  · rw [not_or] at hrole
    have hselected := selected_run (List.mem_of_getElem? hget) hrole.1 hrole.2
    exact .untaken hrole.1 hrole.2 fun _ => Step.not_marksAt hselected

lemma scan_run_letter : scan .run "a" = .ok [.terminal "a"] :=
  scan_of_plain (by decide) (by decide)

/-- A rule that has its alternative twice. -/
def Grammar.doubled : Grammar := .ofRules (.ofList
  [("<S>", List.replicate 2 ⟨"a", [.terminal "a"], scan_run_letter⟩)])

/-- Not every step that takes an alternative of a choice marks this one alone. -/
theorem Strategy.doubled_marks :
    ¬∀ (strategy : Strategy) (g : Grammar) (input : String) (limit : Nat),
      Obeys (fun earlier step => step.action.role = .choice ∨ step.action.role = .retry →
        ∃ t k, step.Takes earlier t k ∧ ∀ i, step.MarksAt i ↔ i = k)
        (strategy.run g input limit).toList := by
  intro hall
  let taken : Candidate := { nonterminal := "<S>", production := "a" }
  have hfirst : ((Strategy.topDown.run Grammar.doubled "b" 100).toList[0]?.map fun step =>
      (step.action.role, step.selected, step.candidates)) =
        some (.choice, some taken, [taken, taken]) := by decide +kernel
  obtain ⟨step, hget, hstep⟩ := Option.map_eq_some_iff.mp hfirst
  obtain ⟨hrole, hselected, hcandidates⟩ :
      step.action.role = .choice ∧ step.selected = some taken ∧
        step.candidates = [taken, taken] := by simpa using hstep
  obtain ⟨t, k, -, hmarks⟩ := hall .topDown .doubled "b" 100 0 step hget (.inl hrole)
  have hzero : 0 = k := (hmarks 0).mp ((Step.marksAt_iff hselected).mpr (by simp [hcandidates]))
  have hone : 1 = k := (hmarks 1).mp ((Step.marksAt_iff hselected).mpr (by simp [hcandidates]))
  omega

end GrammarTrace
