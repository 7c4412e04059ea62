import GrammarTrace.Proofs.Search.Links
import GrammarTrace.Proofs.Search.Soundness
import GrammarTrace.Proofs.Views

/-!
# Searches that can be replayed

Every step of a search can be made again from what the steps before it show
(`SearchSpace.Replays`): a way on from what stands before the step, an alternative of a choice from
what stood before the choice was made, and the end from what the last advance left. The position
and the choices of a search are those that its history shows (`SearchSpace.Replayed`), which every
move preserves.
-/

namespace GrammarTrace

variable {P A : Type}

/-! ### Steps and what stands before them -/

/-- Whether the position of a choice is what stood before the step that made it. -/
def SearchSpace.Recalls (space : SearchSpace P A) (view : P → View) (initial : Option View)
    (steps : List Step) (c : Choice P A) : Prop :=
  space.Keeps (fun p => viewBefore initial steps c.step = some (view p)) c

/-- The steps that a search can make from what the steps before it show. -/
inductive SearchSpace.Replays (space : SearchSpace P A) (view : P → View) (initial : Option View)
    (earlier : List Step) : Step → Prop where
  | forced {p next : P} {action : Action}
      (hbefore : viewBefore initial earlier earlier.length = some (view p))
      (h : space.prospect p = .forced action next) :
      Replays space view initial earlier (space.step next action)
  | choice {p : P} {first : A} {others : List A}
      (hbefore : viewBefore initial earlier earlier.length = some (view p))
      (h : space.prospect p = .choice first others) :
      Replays space view initial earlier (space.choiceStep p first others)
  | retry {r : Resumption P A} (hr : space.Recalls view initial earlier r.choice) :
      Replays space view initial earlier (space.retryStep r)
  | abandonment {c : Choice P A} (hc : space.Recalls view initial earlier c) :
      Replays space view initial earlier (space.abandonStep c)
  | ending {step : Step} {p : P} (hending : step.action.isEnding = true)
      (hview : step.view = view p) (hleft : viewLeft initial earlier = some (view p)) :
      Replays space view initial earlier step

/-- A search space whose steps show the position at which they leave the search, with actions that
say whether the search goes on from there. -/
structure SearchSpace.IsDisplayed (space : SearchSpace P A) (view : P → View) : Prop
    extends space.IsLabelled where
  view_step (p : P) (action : Action) : (space.step p action).view = view p
  view_giveUp (p : P) (reason : Action) : (space.giveUp p reason).view = view p
  advances_of_forced {p next : P} {action : Action} :
    space.prospect p = .forced action next → action.advances = true
  isEnding_of_breakdown {p : P} {reason : Action} :
    space.prospect p = .breakdown reason → reason.isEnding = true
  isEnding_of_deadEnd {p : P} {reason : Action} :
    space.prospect p = .deadEnd reason → reason.isEnding = true
  isEnding_giveUp {reason : Action} (p : P) :
    reason.isEnding = true → (space.giveUp p reason).action.isEnding = true

/-- A search whose history obeys a law and shows the position and the choices of the search. -/
structure SearchSpace.Replayed (space : SearchSpace P A) (view : P → View)
    (initial : Option View) (law : List Step → Step → Prop) (s : SearchState P A) : Prop where
  obeys : Obeys law s.trace.toList
  before : viewBefore initial s.trace.toList s.trace.toList.length = some (view s.position)
  left : viewLeft initial s.trace.toList = some (view s.position)
  choices : ∀ c ∈ s.choices, space.Recalls view initial s.trace.toList c

variable {space : SearchSpace P A} {view : P → View} {initial : Option View}
  {law : List Step → Step → Prop} {steps more : List Step} {step : Step} {trace : Trace}
  {c : Choice P A} {choices exhausted : ChoiceStack P A} {limit : Nat} {s next : SearchState P A}
  {p : P}

lemma SearchSpace.Recalls.append (h : space.Recalls view initial steps c) :
    space.Recalls view initial (steps ++ more) c :=
  ⟨viewBefore_append h.snapshot, h.alternatives⟩

lemma SearchSpace.Recalls.advance (h : space.Recalls view initial steps c) :
    space.Recalls view initial steps c.advance :=
  ⟨h.snapshot, h.alternatives⟩

lemma SearchSpace.IsDisplayed.not_advances_abandonSteps (hspace : space.IsDisplayed view) :
    ∀ step ∈ exhausted.map space.abandonStep, step.action.advances = false := by
  intro step hstep
  obtain ⟨c, -, rfl⟩ := List.mem_map.mp hstep
  exact Action.not_advances_of_role (hspace.role_abandonStep c)

/-! ### Moves -/

/-- An advance shows the position to which it leads. -/
lemma SearchSpace.replayed_push (hobeys : Obeys law trace.toList) (hlaw : law trace.toList step)
    (hadvances : step.action.advances = true) (hview : step.view = view p)
    (hchoices : ∀ c ∈ choices, space.Recalls view initial trace.toList c) :
    space.Replayed view initial law ⟨p, choices, trace.push step⟩ where
  obeys := by
    rw [Trace.toList_push]
    exact hobeys.push hlaw
  before := by
    rw [Trace.toList_push, List.length_append, List.length_singleton, viewBefore_push, hview]
  left := by rw [Trace.toList_push, viewLeft_push_of_advances hadvances, hview]
  choices := by
    intro c hc
    rw [Trace.toList_push]
    exact (hchoices c hc).append

lemma SearchSpace.obeys_abandonAll
    (hlaw : ∀ ⦃earlier step⦄, space.Replays view initial earlier step → law earlier step)
    (hsteps : Obeys law steps) (hall : ∀ c ∈ exhausted, space.Recalls view initial steps c) :
    Obeys law (steps ++ exhausted.map space.abandonStep) := by
  induction exhausted generalizing steps with
  | nil => simpa using hsteps
  | cons c exhausted ih =>
    rw [List.forall_mem_cons] at hall
    have hpush := hsteps.push (hlaw (.abandonment hall.1))
    have hrest := ih hpush fun d hd => (hall.2 d hd).append
    rwa [List.append_assoc, List.singleton_append] at hrest

lemma SearchSpace.Move.replayed (hspace : space.IsDisplayed view)
    (hlaw : ∀ ⦃earlier step⦄, space.Replays view initial earlier step → law earlier step)
    (h : space.Move s next) (hs : space.Replayed view initial law s) :
    space.Replayed view initial law next := by
  cases h with
  | @forced action position h =>
    have hadvances : (space.step position action).action.advances = true := by
      rw [hspace.step]
      exact hspace.advances_of_forced h
    exact replayed_push hs.obeys (hlaw (.forced hs.before h)) hadvances (hspace.view_step ..)
      hs.choices
  | @choose first others h =>
    have hadvances :=
      Action.advances_of_role (.inl (hspace.role_choiceStep s.position first others))
    refine replayed_push hs.obeys (hlaw (.choice hs.before h)) hadvances (hspace.view_step ..) ?_
    intro c hc
    split_ifs at hc
    · exact hs.choices c hc
    · rcases List.mem_cons.mp hc with rfl | hc
      · -- the choice is made where the search stands
        refine ⟨?_, first, others, h, rfl⟩
        rw [← Trace.length_toList, hs.before]
      · exact hs.choices c hc
  | @resume _ r exhausted older h hstack hall =>
    have hrecalls : ∀ c ∈ exhausted ++ r.choice :: older,
        space.Recalls view initial s.trace.toList c := hstack ▸ hs.choices
    rw [List.forall_mem_append, List.forall_mem_cons] at hrecalls
    obtain ⟨hexhausted, hr, holder⟩ := hrecalls
    have hobeys := obeys_abandonAll hlaw hs.obeys hexhausted
    rw [← Trace.toList_pushAll] at hobeys
    have hr' : space.Recalls view initial
        (s.trace.pushAll (exhausted.map space.abandonStep)).toList r.choice := by
      rw [Trace.toList_pushAll]
      exact hr.append
    have hadvances := Action.advances_of_role (.inr (hspace.role_retryStep r))
    refine replayed_push hobeys (hlaw (.retry hr')) hadvances (hspace.view_step ..) ?_
    intro c hc
    rcases List.mem_cons.mp hc with rfl | hc
    · exact hr'.advance
    · rw [Trace.toList_pushAll]
      exact (holder c hc).append

lemma SearchSpace.Reaches.replayed (hspace : space.IsDisplayed view)
    (hlaw : ∀ ⦃earlier step⦄, space.Replays view initial earlier step → law earlier step)
    (h : space.Reaches limit s next) (hs : space.Replayed view initial law s) :
    space.Replayed view initial law next := by
  induction h with
  | refl => exact hs
  | tail _ hmove ih => exact hmove.2.replayed hspace hlaw ih

/-! ### Runs -/

/-- A trace whose steps obey a law, and whose last step ends a run. -/
structure Trace.Completes (trace : Trace) (law : List Step → Step → Prop) : Prop where
  obeys : Obeys law trace.toList
  ending : ∃ last, trace.last? = some last ∧ last.action.isEnding = true

lemma Trace.completes_push (hobeys : Obeys law trace.toList) (hlaw : law trace.toList step)
    (hending : step.action.isEnding = true) : (trace.push step).Completes law where
  obeys := by
    rw [Trace.toList_push]
    exact hobeys.push hlaw
  ending := ⟨step, Trace.last?_push .., hending⟩

lemma SearchSpace.Ends.completes (hspace : space.IsDisplayed view)
    (hlaw : ∀ ⦃earlier step⦄, space.Replays view initial earlier step → law earlier step)
    (h : space.Ends limit s trace) (hs : space.Replayed view initial law s) :
    trace.Completes law := by
  -- what ends a search shows its position, which the last advance has left
  have hend : ∀ last : Step, last.action.isEnding = true → last.view = view s.position →
      (s.trace.push last).Completes law := by
    intro last hending hview
    exact Trace.completes_push hs.obeys (hlaw (.ending hending hview hs.left)) hending
  have hstep : ∀ action : Action, action.isEnding = true →
      (space.step s.position action).action.isEnding = true := by
    intro action hending
    rwa [hspace.step]
  cases h with
  | limit => exact hend _ (hstep (.stepLimit limit) rfl) (hspace.view_step ..)
  | goal => exact hend _ (hstep .success rfl) (hspace.view_step ..)
  | breakdown h =>
    exact hend _ (hstep _ (hspace.isEnding_of_breakdown h)) (hspace.view_step ..)
  | deadEnd h hstack =>
    exact hend _ (hspace.isEnding_giveUp _ (hspace.isEnding_of_deadEnd h)) (hspace.view_giveUp ..)
  | exhausted h hstack hall =>
    have hobeys := obeys_abandonAll hlaw hs.obeys
      fun c hc => hs.choices c (List.dropLast_subset _ hc)
    have hending : (space.giveUp s.position .alternativesExhausted).action.isEnding = true :=
      hspace.isEnding_giveUp s.position rfl
    rw [← Trace.toList_pushAll] at hobeys
    refine Trace.completes_push hobeys (hlaw (.ending hending (hspace.view_giveUp ..) ?_)) hending
    rw [Trace.toList_pushAll, viewLeft_append_of_not_advances hspace.not_advances_abandonSteps,
      hs.left]

/-- Every step of a run can be made again from the steps before it. -/
theorem SearchSpace.Replayed.completes_run (hspace : space.IsDisplayed view)
    (hlaw : ∀ ⦃earlier step⦄, space.Replays view initial earlier step → law earlier step)
    (hs : space.Replayed view initial law s) (limit : Nat) :
    (space.run limit s).Completes law := by
  obtain ⟨last, hreach, hends⟩ := space.exists_ends limit s
  exact hends.completes hspace hlaw (hreach.replayed hspace hlaw hs)

end GrammarTrace
