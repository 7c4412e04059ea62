import GrammarTrace.Proofs.Search.Moves

/-!
# What a search records

A property of positions that every way on preserves holds at every position that the search shows:
at the current one, at those of its choices, and hence in every step of the trace
(`SearchSpace.mem_run`).
-/

namespace GrammarTrace

variable {P A : Type} {space : SearchSpace P A} {I : P → Prop} {limit : Nat}
  {s next : SearchState P A} {trace : Trace} {step : Step}

/-! ### Invariants of positions -/

/-- A property of positions that every way on preserves. -/
structure SearchSpace.Preserves (space : SearchSpace P A) (I : P → Prop) : Prop where
  forced {p : P} {action : Action} {next : P} :
    I p → space.prospect p = .forced action next → I next
  choice {p : P} {first : A} {others : List A} {a : A} :
    I p → space.prospect p = .choice first others → a ∈ first :: others → I (space.take p a)

lemma SearchSpace.preserves_true : space.Preserves fun _ => True where
  forced _ _ := trivial
  choice _ _ _ := trivial

/-- A choice that was made at a position with a property, among all alternatives found there. -/
structure SearchSpace.Keeps (space : SearchSpace P A) (I : P → Prop) (choice : Choice P A) :
    Prop where
  snapshot : I choice.snapshot
  alternatives : ∃ first others,
    space.prospect choice.snapshot = .choice first others ∧ choice.alternatives = first :: others

/-- A search whose positions, those of its choices included, have a property. -/
structure SearchSpace.Sound (space : SearchSpace P A) (I : P → Prop) (s : SearchState P A) :
    Prop where
  position : I s.position
  choices : ∀ choice ∈ s.choices, space.Keeps I choice

lemma SearchSpace.sound_of_start {p : P} (hp : I p) : space.Sound I ⟨p, [], trace⟩ :=
  ⟨hp, List.forall_mem_nil _⟩

lemma SearchSpace.Preserves.take {choice : Choice P A} {a : A} (hI : space.Preserves I)
    (hchoice : space.Keeps I choice) (ha : a ∈ choice.alternatives) :
    I (space.take choice.snapshot a) := by
  obtain ⟨first, others, hprospect, halternatives⟩ := hchoice.alternatives
  rw [halternatives] at ha
  exact hI.choice hchoice.snapshot hprospect ha

lemma Resumption.alternative_mem (r : Resumption P A) :
    r.alternative ∈ r.choice.alternatives := by
  simp [Resumption.alternative]

lemma SearchSpace.Preserves.resume (hI : space.Preserves I) {r : Resumption P A}
    (hr : space.Keeps I r.choice) : I (space.take r.choice.snapshot r.alternative) :=
  hI.take hr r.alternative_mem

lemma SearchSpace.Move.sound (h : space.Move s next) (hI : space.Preserves I)
    (hs : space.Sound I s) : space.Sound I next := by
  cases h with
  | forced h => exact ⟨hI.forced hs.position h, hs.choices⟩
  | @choose first others h =>
    refine ⟨hI.choice hs.position h List.mem_cons_self, ?_⟩
    intro choice hchoice
    simp only [SearchSpace.choose] at hchoice
    split_ifs at hchoice
    · exact hs.choices choice hchoice
    · rcases List.mem_cons.mp hchoice with rfl | hchoice
      · exact ⟨hs.position, first, others, h, rfl⟩
      · exact hs.choices choice hchoice
  | @resume _ r _ older h hstack hall =>
    have hkeeps : ∀ choice ∈ r.choice :: older, space.Keeps I choice := by
      intro choice hchoice
      exact hs.choices choice (hstack ▸ List.mem_append_right _ hchoice)
    have hr := hkeeps r.choice List.mem_cons_self
    refine ⟨hI.resume hr, ?_⟩
    intro choice hchoice
    rcases List.mem_cons.mp hchoice with rfl | hchoice
    · exact ⟨hr.snapshot, hr.alternatives⟩
    · exact hkeeps choice (List.mem_cons_of_mem _ hchoice)

lemma SearchSpace.Reaches.sound (h : space.Reaches limit s next) (hI : space.Preserves I)
    (hs : space.Sound I s) : space.Sound I next := by
  induction h with
  | refl => exact hs
  | tail _ hmove ih => exact hmove.2.sound hI ih

/-! ### The steps of a run -/

lemma Trace.mem_push {new : Step} :
    step ∈ (trace.push new).toList ↔ step ∈ trace.toList ∨ step = new := by
  simp

lemma Trace.mem_pushAll {steps : List Step} :
    step ∈ (trace.pushAll steps).toList ↔ step ∈ trace.toList ∨ step ∈ steps := by
  simp

/-- Whether a trace goes on as another one with steps of some kind. -/
def Trace.Extends (Q : Step → Prop) (trace longer : Trace) : Prop :=
  ∃ more, longer.toList = trace.toList ++ more ∧ ∀ step ∈ more, Q step

lemma Trace.Extends.refl {Q : Step → Prop} (trace : Trace) : trace.Extends Q trace :=
  ⟨[], (List.append_nil _).symm, List.forall_mem_nil _⟩

lemma Trace.Extends.trans {Q : Step → Prop} {longer longest : Trace} (h : trace.Extends Q longer)
    (hlonger : longer.Extends Q longest) : trace.Extends Q longest := by
  obtain ⟨more, hmore, hall⟩ := h
  obtain ⟨rest, hrest, hrestAll⟩ := hlonger
  refine ⟨more ++ rest, ?_, List.forall_mem_append.mpr ⟨hall, hrestAll⟩⟩
  rw [hrest, hmore, List.append_assoc]

lemma Trace.Extends.push {Q : Step → Prop} (h : Q step) : trace.Extends Q (trace.push step) :=
  ⟨[step], trace.toList_push step, List.forall_mem_singleton.mpr h⟩

lemma Trace.Extends.pushAll {Q : Step → Prop} {steps : List Step} (h : ∀ step ∈ steps, Q step) :
    trace.Extends Q (trace.pushAll steps) :=
  ⟨steps, trace.toList_pushAll steps, h⟩

/-- The steps that a search records at positions with a property. -/
inductive SearchSpace.Records (space : SearchSpace P A) (I : P → Prop) (limit : Nat) :
    Step → Prop where
  | forced {p : P} {action : Action} {next : P} (hp : I p)
      (h : space.prospect p = .forced action next) : Records space I limit (space.step next action)
  | choice {p : P} {first : A} {others : List A} (hp : I p)
      (h : space.prospect p = .choice first others) :
      Records space I limit (space.choiceStep p first others)
  | retry {r : Resumption P A} (hr : space.Keeps I r.choice) :
      Records space I limit (space.retryStep r)
  | abandon {choice : Choice P A} (hchoice : space.Keeps I choice) :
      Records space I limit (space.abandonStep choice)
  | limit {p : P} (hp : I p) : Records space I limit (space.step p (.stepLimit limit))
  | goal {p : P} {alternatives : List A} (hp : I p) (h : space.prospect p = .goal alternatives) :
      Records space I limit (space.goalStep p alternatives)
  | breakdown {p : P} {reason : Action} (hp : I p) (h : space.prospect p = .breakdown reason) :
      Records space I limit { space.step p reason with success := some false }
  | deadEnd {p : P} {reason : Action} (hp : I p) (h : space.prospect p = .deadEnd reason) :
      Records space I limit (space.giveUp p reason)
  | exhausted {p : P} (hp : I p) : Records space I limit (space.giveUp p .alternativesExhausted)

lemma SearchSpace.Move.extends (h : space.Move s next) (hs : space.Sound I s) :
    s.trace.Extends (space.Records I limit) next.trace := by
  cases h with
  | forced h => exact .push (.forced hs.position h)
  | choose h => exact .push (.choice hs.position h)
  | resume h hstack hall =>
    refine .trans (.pushAll fun step hstep => ?_) (.push (.retry (hs.choices _ (by simp [hstack]))))
    obtain ⟨choice, hchoice, rfl⟩ := List.mem_map.mp hstep
    exact .abandon (hs.choices choice (by simp [hstack, hchoice]))

lemma SearchSpace.Ends.extends (h : space.Ends limit s trace) (hs : space.Sound I s) :
    s.trace.Extends (space.Records I limit) trace := by
  cases h with
  | limit => exact .push (.limit hs.position)
  | goal h => exact .push (.goal hs.position h)
  | breakdown h => exact .push (.breakdown hs.position h)
  | deadEnd h => exact .push (.deadEnd hs.position h)
  | exhausted =>
    refine .trans (.pushAll fun step hstep => ?_) (.push (.exhausted hs.position))
    obtain ⟨choice, hchoice, rfl⟩ := List.mem_map.mp hstep
    exact .abandon (hs.choices choice (List.dropLast_subset _ hchoice))

lemma SearchSpace.Reaches.extends (h : space.Reaches limit s next) (hI : space.Preserves I)
    (hs : space.Sound I s) : s.trace.Extends (space.Records I limit) next.trace := by
  induction h with
  | refl => exact .refl _
  | tail hreach hmove ih => exact ih.trans (hmove.2.extends (Reaches.sound hreach hI hs))

/-- A run adds steps at the end, all of them recorded at positions with the property. -/
lemma SearchSpace.extends_run (hI : space.Preserves I) (hs : space.Sound I s) :
    s.trace.Extends (space.Records I limit) (space.run limit s) := by
  obtain ⟨last, hreach, hends⟩ := space.exists_ends limit s
  exact (hreach.extends hI hs).trans (hends.extends (hreach.sound hI hs))

/-- A run adds only steps that are recorded at positions with the property. -/
theorem SearchSpace.mem_run (hI : space.Preserves I) (hs : space.Sound I s)
    (hstep : step ∈ (space.run limit s).toList) :
    step ∈ s.trace.toList ∨ space.Records I limit step := by
  obtain ⟨more, hrun, hmore⟩ : s.trace.Extends (space.Records I limit) _ := extends_run hI hs
  rw [hrun] at hstep
  exact (List.mem_append.mp hstep).imp_right (hmore step)

/-! ### The positions that steps show -/

/-- Whether a step shows a position, with the form and the unread input there. -/
def SearchSpace.Shows (space : SearchSpace P A) (step : Step) (p : P) : Prop :=
  ∃ action, step.form = (space.step p action).form ∧
    step.remaining = (space.step p action).remaining

/-- Every recorded step shows a position with the property. -/
lemma SearchSpace.Records.exists_shows (h : space.Records I limit step) (hI : space.Preserves I)
    (hgiveUp : ∀ p reason, space.Shows (space.giveUp p reason) p) :
    ∃ p, I p ∧ space.Shows step p := by
  cases h with
  | forced hp h => exact ⟨_, hI.forced hp h, _, rfl, rfl⟩
  | choice hp h => exact ⟨_, hI.choice hp h List.mem_cons_self, _, rfl, rfl⟩
  | retry hr => exact ⟨_, hI.resume hr, _, rfl, rfl⟩
  | abandon hchoice => exact ⟨_, hchoice.snapshot, _, rfl, rfl⟩
  | limit hp => exact ⟨_, hp, _, rfl, rfl⟩
  | goal hp _ => exact ⟨_, hp, _, rfl, rfl⟩
  | breakdown hp _ => exact ⟨_, hp, _, rfl, rfl⟩
  | deadEnd hp _ => exact ⟨_, hp, hgiveUp _ _⟩
  | exhausted hp => exact ⟨_, hp, hgiveUp _ _⟩

/-! ### Acceptance -/

lemma Trace.last?_eq_getLast? : trace.last? = trace.toList.getLast? := by
  simp [Trace.last?, Trace.toList]

lemma Trace.eq_of_last {new : Step} (h : (trace.push new).last? = some step) : new = step := by
  rwa [Trace.last?_push, Option.some.injEq] at h

lemma Trace.verdict_push : (trace.push step).verdict = Verdict.ofMark step.success := by
  simp [Trace.verdict]

lemma Verdict.ofMark_eq_accepted {mark : Option Bool} :
    Verdict.ofMark mark = .accepted ↔ mark = some true := by
  rcases mark with _ | _ | _ <;> simp [Verdict.ofMark]

lemma Verdict.ofMark_eq_rejected {mark : Option Bool} :
    Verdict.ofMark mark = .rejected ↔ mark = some false := by
  rcases mark with _ | _ | _ <;> simp [Verdict.ofMark]

lemma Trace.exists_last_of_rejected (h : trace.verdict = .rejected) :
    ∃ step, trace.last? = some step ∧ step.success = some false := by
  rw [Trace.verdict, Verdict.ofMark_eq_rejected, Option.bind_eq_some_iff] at h
  exact h

/-- A search space in which a step decides nothing by itself and giving up never means success. -/
structure SearchSpace.MarksGoals (space : SearchSpace P A) : Prop where
  step (p : P) (action : Action) : (space.step p action).success = none
  giveUp (p : P) (reason : Action) : (space.giveUp p reason).success ≠ some true

lemma SearchSpace.Ends.exists_goal (h : space.Ends limit s trace) (hmarks : space.MarksGoals)
    (haccepted : trace.verdict = .accepted) :
    ∃ alternatives, space.prospect s.position = .goal alternatives := by
  cases h with
  | goal h => exact ⟨_, h⟩
  | limit =>
    rw [Trace.verdict_push, Verdict.ofMark_eq_accepted, hmarks.step] at haccepted
    cases haccepted
  | breakdown =>
    rw [Trace.verdict_push, Verdict.ofMark_eq_accepted] at haccepted
    cases haccepted
  | deadEnd | exhausted =>
    rw [Trace.verdict_push, Verdict.ofMark_eq_accepted] at haccepted
    exact absurd haccepted (hmarks.giveUp _ _)

/-- An accepting run has found a goal with the property. -/
theorem SearchSpace.exists_goal_of_accepted (hmarks : space.MarksGoals) (hI : space.Preserves I)
    (hs : space.Sound I s) (haccepted : (space.run limit s).verdict = .accepted) :
    ∃ p alternatives, I p ∧ space.prospect p = .goal alternatives := by
  obtain ⟨last, hreach, hends⟩ := space.exists_ends limit s
  obtain ⟨alternatives, hgoal⟩ := hends.exists_goal hmarks haccepted
  exact ⟨last.position, alternatives, (hreach.sound hI hs).position, hgoal⟩

end GrammarTrace
