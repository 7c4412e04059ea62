import GrammarTrace.Proofs.Search.Moves

/-!
# Searches that look things up

A checked search works like a search, but takes what it needs from texts and lists at places that
may not be there, and fails if one is not. If what it finds agrees with a search at all positions
that have some property, and its moves preserve the property, then it never fails and records what
the search records (`CheckedSpace.Agrees.run_eq_some`). Its choices can be gone back to at any time
(`CheckedSpace.Agrees.stands_of_reaches`).
-/

namespace GrammarTrace

variable {P Q A : Type}

/-! ### Checked searches -/

/-- A search space in which a lookup may fail. -/
structure CheckedSpace (P A : Type) where
  prospect : P → Option (Prospect P A)
  take : P → A → Option P
  candidate : P → A → Candidate
  chosen : Candidate → Action
  abandoned : P → Action
  step : P → Action → Option Step
  giveUp : P → Action → Option Step

namespace CheckedSpace

variable (space : CheckedSpace P A)

/-- Take the alternative with a number, and show it with the others. -/
def pick (position : P) (alternatives : List A) (number : Nat) (label : Candidate → Action) :
    Option (P × Step) := do
  let a ← alternatives[number]?
  let next ← space.take position a
  let candidates := alternatives.map (space.candidate position)
  let taken ← candidates[number]?
  let step ← space.step next (label taken)
  return (next, { step with candidates, selected := some taken })

/-- Go back to the youngest choice with an untried alternative; those above it are left for good. -/
def resume (position : P) : ChoiceStack P A → Trace → Option (Progress P A)
  | [], trace => do
    let step ← space.giveUp position .alternativesExhausted
    return .ended (trace.push step)
  | c :: older, trace =>
    if c.isExhausted then
      if older.isEmpty then resume position older trace
      else do
        let step ← space.step c.snapshot (space.abandoned c.snapshot)
        resume position older (trace.push { step with backtrackTo := some c.step })
    else do
      let (next, step) ← space.pick c.snapshot c.alternatives c.cursor fun taken =>
        .retry taken.nonterminal taken.production
      return .running
        ⟨next, c.advance :: older, trace.push { step with backtrackTo := some c.step }⟩

/-- Make the move that a prospect calls for. -/
def proceed (s : SearchState P A) : Prospect P A → Option (Progress P A)
  | .goal alternatives => do
    let step ← space.step s.position .success
    return .ended (s.trace.push
      { step with
        candidates := alternatives.map (space.candidate s.position)
        success := some true })
  | .forced action next => do
    let step ← space.step next action
    return .running ⟨next, s.choices, s.trace.push step⟩
  | .choice first others => do
    let (next, step) ← space.pick s.position (first :: others) 0 space.chosen
    let choices :=
      if others.isEmpty then s.choices
      else { snapshot := s.position, alternatives := first :: others, step := s.trace.size }
        :: s.choices
    return .running ⟨next, choices, s.trace.push step⟩
  | .deadEnd reason =>
    if s.choices.isEmpty then do
      let step ← space.giveUp s.position reason
      return .ended (s.trace.push step)
    else space.resume s.position s.choices s.trace
  | .breakdown reason => do
    let step ← space.step s.position reason
    return .ended (s.trace.push { step with success := some false })

/-- Search until the search ends or the trace has reached the limit, with at most a number of
moves. -/
def run (limit : Nat) : Nat → SearchState P A → Option Trace
  | 0, _ => none
  | moves + 1, s => do
    let found ← space.prospect s.position
    if limit ≤ s.trace.size ∧ found.isGoal = false then
      let step ← space.step s.position (.stepLimit limit)
      return s.trace.push step
    else
      match ← space.proceed s found with
      | .ended trace => return trace
      | .running next => run limit moves next

/-- One move of a run that does not end it. -/
def Moves (limit : Nat) (s next : SearchState P A) : Prop :=
  s.trace.size < limit ∧ ∃ found, space.prospect s.position = some found ∧
    space.proceed s found = some (.running next)

/-- Moves one after the other. -/
def Reaches (limit : Nat) : SearchState P A → SearchState P A → Prop :=
  Relation.ReflTransGen (space.Moves limit)

end CheckedSpace

/-! ### Positions and what they stand for -/

/-- What is found, with what the positions stand for. -/
def Prospect.map (f : P → Q) : Prospect P A → Prospect Q A
  | .goal alternatives => .goal alternatives
  | .forced action next => .forced action (f next)
  | .choice first others => .choice first others
  | .deadEnd reason => .deadEnd reason
  | .breakdown reason => .breakdown reason

/-- A choice, with what its position stands for. -/
def Choice.map (f : P → Q) (c : Choice P A) : Choice Q A :=
  ⟨f c.snapshot, c.alternatives, c.step, c.cursor⟩

/-- A search, with what its positions stand for. -/
def SearchState.map (f : P → Q) (s : SearchState P A) : SearchState Q A :=
  ⟨f s.position, s.choices.map (Choice.map f), s.trace⟩

/-- A search after one more move, with what its positions stand for. -/
def Progress.map (f : P → Q) : Progress P A → Progress Q A
  | .ended trace => .ended trace
  | .running s => .running (s.map f)

@[simp] lemma Prospect.map_id (found : Prospect P A) : found.map id = found := by
  cases found <;> rfl

@[simp] lemma SearchState.map_id (s : SearchState P A) : s.map id = s := by
  have hchoice : (Choice.map id : Choice P A → Choice P A) = id := rfl
  simp [map, hchoice]

/-- A checked search that agrees with a search at all positions with a property. Its moves preserve
the property, and do not fall behind in a measure. -/
structure CheckedSpace.Agrees (checked : CheckedSpace P A) (space : SearchSpace Q A) (f : P → Q)
    (I : P → Prop) (measure : P → Nat) : Prop where
  prospect {p : P} : I p →
    ∃ found, checked.prospect p = some found ∧ space.prospect (f p) = found.map f
  forced {p next : P} {action : Action} : I p →
    checked.prospect p = some (.forced action next) → I next ∧ measure p ≤ measure next
  take {p : P} {first a : A} {others : List A} : I p →
    checked.prospect p = some (.choice first others) → a ∈ first :: others →
    ∃ next, checked.take p a = some next ∧ space.take (f p) a = f next ∧ I next ∧
      measure p ≤ measure next
  candidate (p : P) (a : A) : checked.candidate p a = space.candidate (f p) a
  chosen (taken : Candidate) : checked.chosen taken = space.chosen taken
  abandoned (p : P) : checked.abandoned p = space.abandoned (f p)
  step {p : P} (action : Action) : I p → checked.step p action = some (space.step (f p) action)
  giveUp {p : P} (reason : Action) : I p →
    checked.giveUp p reason = some (space.giveUp (f p) reason)

/-- A choice that a checked search can go back to. -/
structure CheckedSpace.Keeps (checked : CheckedSpace P A) (I : P → Prop) (c : Choice P A) :
    Prop where
  snapshot : I c.snapshot
  alternatives : ∃ first others, checked.prospect c.snapshot = some (.choice first others) ∧
    c.alternatives = first :: others
  several : 2 ≤ c.alternatives.length
  taken : 1 ≤ c.cursor
  cursor_le : c.cursor ≤ c.alternatives.length

/-- A checked search that can go on from where it stands and from all of its choices. Younger
choices are not behind older ones. -/
structure CheckedSpace.Stands (checked : CheckedSpace P A) (I : P → Prop) (measure : P → Nat)
    (s : SearchState P A) : Prop where
  position : I s.position
  choices : ∀ c ∈ s.choices, checked.Keeps I c
  ordered : s.choices.Pairwise fun younger older =>
    measure older.snapshot ≤ measure younger.snapshot
  behind : ∀ c ∈ s.choices, measure c.snapshot ≤ measure s.position

variable {checked : CheckedSpace P A} {space : SearchSpace Q A} {f : P → Q} {I : P → Prop}
  {measure : P → Nat} {s next : SearchState P A} {p : P} {first a : A} {others : List A}
  {c : Choice P A} {exhausted older : ChoiceStack P A} {trace : Trace} {found : Prospect P A}
  {limit number : Nat}

lemma CheckedSpace.Keeps.advance (h : checked.Keeps I c) (hc : c.isExhausted = false) :
    checked.Keeps I c.advance where
  snapshot := h.snapshot
  alternatives := h.alternatives
  several := h.several
  taken := Nat.le_add_left 1 c.cursor
  cursor_le := by
    rw [Choice.isExhausted, decide_eq_false_iff_not, Nat.not_le] at hc
    exact hc

namespace CheckedSpace.Agrees

/-! ### Moves -/

/-- A choice takes whichever of its alternatives it is asked for. -/
lemma exists_pick (h : checked.Agrees space f I measure) (hp : I p)
    (hprospect : checked.prospect p = some (.choice first others))
    (ha : (first :: others)[number]? = some a) :
    ∃ next, (∀ label, checked.pick p (first :: others) number label = some (next,
        { space.step (space.take (f p) a) (label (space.candidate (f p) a)) with
          candidates := (first :: others).map (space.candidate (f p))
          selected := some (space.candidate (f p) a) })) ∧
      space.take (f p) a = f next ∧ I next ∧ measure p ≤ measure next := by
  obtain ⟨next, htake, hnext, hI, hmeasure⟩ := h.take hp hprospect (List.mem_of_getElem? ha)
  have hcandidate : checked.candidate p = space.candidate (f p) := funext (h.candidate p)
  refine ⟨next, fun label => ?_, hnext, hI, hmeasure⟩
  simp only [pick, ha, htake, hcandidate, List.getElem?_map, Option.map_some, Option.bind_eq_bind,
    Option.bind_some, h.step _ hI, hnext, Option.pure_def]

lemma step_abandoned (h : checked.Agrees space f I measure) (hc : checked.Keeps I c) :
    checked.step c.snapshot (checked.abandoned c.snapshot) =
      some (space.step (f c.snapshot) (space.abandoned (f c.snapshot))) := by
  rw [h.abandoned, h.step _ hc.snapshot]

/-- Exhausted choices are left for good as long as there are others. -/
lemma resume_exhausted (h : checked.Agrees space f I measure)
    (hkeeps : ∀ c ∈ exhausted, checked.Keeps I c)
    (hall : ∀ c ∈ exhausted, c.isExhausted = true) (holder : older ≠ []) :
    checked.resume p (exhausted ++ older) trace = checked.resume p older
      (trace.pushAll ((exhausted.map (Choice.map f)).map space.abandonStep)) := by
  induction exhausted generalizing trace with
  | nil => rfl
  | cons c exhausted ih =>
    rw [List.forall_mem_cons] at hkeeps hall
    have hrest : (exhausted ++ older).isEmpty = false := by simp [holder]
    rw [List.cons_append, resume, if_pos hall.1, hrest, h.step_abandoned hkeeps.1]
    exact ih hkeeps.2 hall.2

/-- A search without an untried alternative gives up. -/
lemma resume_of_exhausted (h : checked.Agrees space f I measure) (hp : I p)
    (hkeeps : ∀ c ∈ exhausted, checked.Keeps I c)
    (hall : ∀ c ∈ exhausted, c.isExhausted = true) (hne : exhausted ≠ []) :
    checked.resume p exhausted trace = some (.ended
      ((trace.pushAll ((exhausted.map (Choice.map f)).dropLast.map space.abandonStep)).push
        (space.giveUp (f p) .alternativesExhausted))) := by
  obtain ⟨init, last, rfl⟩ := List.eq_nil_or_concat exhausted |>.resolve_left hne
  rw [List.concat_eq_append, List.forall_mem_append, List.forall_mem_singleton] at hkeeps hall
  rw [List.concat_eq_append, h.resume_exhausted hkeeps.1 hall.1 (List.cons_ne_nil _ _), resume,
    if_pos hall.2, List.isEmpty_nil, if_pos rfl, resume, h.giveUp _ hp, List.map_append,
    List.map_singleton, List.dropLast_concat]
  rfl

/-- An untried alternative of the youngest choice is taken. -/
lemma exists_resume_cons (h : checked.Agrees space f I measure) (hc : checked.Keeps I c)
    (r : Resumption Q A) (hr : r.choice = c.map f) :
    ∃ next, (∀ p older trace, checked.resume p (c :: older) trace = some (.running
        ⟨next, c.advance :: older, trace.push (space.retryStep r)⟩)) ∧
      space.take r.choice.snapshot r.alternative = f next ∧ I next ∧
      measure c.snapshot ≤ measure next := by
  obtain ⟨choice, huntried⟩ := r
  obtain rfl : choice = c.map f := hr
  have hopen : c.isExhausted = false := decide_eq_false (Nat.not_le.mpr huntried)
  obtain ⟨first, others, hprospect, halternatives⟩ := hc.alternatives
  have ha : (first :: others)[c.cursor]? =
      some (Resumption.alternative ⟨c.map f, huntried⟩) := by
    rw [← halternatives]
    exact List.getElem?_eq_getElem huntried
  obtain ⟨next, hpick, hnext, hI, hmeasure⟩ := h.exists_pick hc.snapshot hprospect ha
  refine ⟨next, fun p older trace => ?_, hnext, hI, hmeasure⟩
  rw [resume, hopen, if_neg Bool.false_ne_true, halternatives, hpick]
  simp only [SearchSpace.retryStep, Choice.map, halternatives]
  rfl

/-- A choice that is made can be gone back to, if another alternative is left. -/
lemma stands_choose {next : P} (hs : checked.Stands I measure s)
    (hprospect : checked.prospect s.position = some (.choice first others)) (hnext : I next)
    (hmeasure : measure s.position ≤ measure next) :
    checked.Stands I measure ⟨next,
      if others.isEmpty then s.choices
      else { snapshot := s.position, alternatives := first :: others, step := s.trace.size }
        :: s.choices, trace⟩ := by
  have hbehind : ∀ c ∈ s.choices, measure c.snapshot ≤ measure next :=
    fun c hc => Nat.le_trans (hs.behind c hc) hmeasure
  split_ifs with hothers
  · exact ⟨hnext, hs.choices, hs.ordered, hbehind⟩
  · have hlength := List.length_pos_iff.mpr (mt List.isEmpty_iff.mpr hothers)
    refine ⟨hnext, List.forall_mem_cons.mpr ⟨?_, hs.choices⟩,
      List.pairwise_cons.mpr ⟨hs.behind, hs.ordered⟩,
      List.forall_mem_cons.mpr ⟨hmeasure, hbehind⟩⟩
    exact ⟨hs.position, ⟨first, others, hprospect, rfl⟩, Nat.succ_le_succ hlength, Nat.le_refl 1,
      Nat.succ_le_succ (Nat.zero_le _)⟩

/-- At a dead end a checked search goes back as the search does. -/
lemma exists_backtrack (h : checked.Agrees space f I measure) (hs : checked.Stands I measure s)
    (reason : Action) :
    ∃ progress, checked.proceed s (.deadEnd reason) = some progress ∧
      space.backtrack (s.map f) reason = progress.map f ∧
      ∀ next, progress = .running next → checked.Stands I measure next := by
  obtain ⟨position, choices, trace⟩ := s
  rw [proceed, SearchSpace.backtrack]
  simp only [SearchState.map, List.isEmpty_map]
  split_ifs with hempty
  · rw [h.giveUp _ hs.position]
    exact ⟨_, rfl, rfl, by rintro _ ⟨⟩⟩
  have hne : choices ≠ [] := mt List.isEmpty_iff.mpr hempty
  cases hr : (ChoiceStack.resume (choices.map (Choice.map f))).resumption with
  | none =>
    obtain ⟨hall, hresume⟩ := ChoiceStack.resume_of_no_resumption hr
    rw [List.forall_mem_map] at hall
    rw [hresume, h.resume_of_exhausted hs.position hs.choices hall hne]
    exact ⟨_, rfl, rfl, by rintro _ ⟨⟩⟩
  | some r =>
    obtain ⟨exhausted', older', hstack, hall, hresume⟩ := ChoiceStack.exists_of_resumption hr
    obtain ⟨exhausted, rest, rfl, rfl, hrest⟩ := List.map_eq_append_iff.mp hstack
    obtain ⟨c, older, rfl, hc, rfl⟩ := List.map_eq_cons_iff.mp hrest
    rw [List.forall_mem_map] at hall
    have hkeeps := List.forall_mem_append.mp hs.choices
    have hbehind := List.forall_mem_append.mp hs.behind
    obtain ⟨hkeep, hkeepOlder⟩ := List.forall_mem_cons.mp hkeeps.2
    obtain ⟨holder, hordered⟩ :=
      List.pairwise_cons.mp (List.pairwise_append.mp hs.ordered).2.1
    obtain ⟨next, hnext, htake, hI, hmeasure⟩ := h.exists_resume_cons hkeep r hc.symm
    rw [hresume, h.resume_exhausted hkeeps.1 hall (List.cons_ne_nil _ _), hnext]
    refine ⟨_, rfl, ?_, ?_⟩
    · change Progress.running ⟨space.take r.choice.snapshot r.alternative, _, _⟩ = _
      rw [htake, ← hc]
      rfl
    · rintro _ ⟨⟩
      have huntried := r.untried
      rw [← hc] at huntried
      have hopen : c.isExhausted = false := decide_eq_false (Nat.not_le.mpr huntried)
      exact ⟨hI, List.forall_mem_cons.mpr ⟨hkeep.advance hopen, hkeepOlder⟩,
        List.pairwise_cons.mpr ⟨holder, hordered⟩,
        List.forall_mem_cons.mpr ⟨hmeasure, fun d hd => Nat.le_trans (holder d hd) hmeasure⟩⟩

/-- A checked search makes the moves of the search, and stands where it can go on. -/
theorem exists_proceed (h : checked.Agrees space f I measure) (hs : checked.Stands I measure s)
    (hfound : checked.prospect s.position = some found) :
    ∃ progress, checked.proceed s found = some progress ∧
      space.proceed (s.map f) (found.map f) = progress.map f ∧
      ∀ next, progress = .running next → checked.Stands I measure next := by
  cases found with
  | goal alternatives =>
    have hcandidate : checked.candidate s.position = space.candidate (f s.position) :=
      funext (h.candidate _)
    rw [proceed, h.step _ hs.position, hcandidate]
    exact ⟨_, rfl, rfl, by rintro _ ⟨⟩⟩
  | forced action next =>
    obtain ⟨hnext, hmeasure⟩ := h.forced hs.position hfound
    rw [proceed, h.step _ hnext]
    refine ⟨_, rfl, rfl, ?_⟩
    rintro _ ⟨⟩
    exact ⟨hnext, hs.choices, hs.ordered, fun c hc => Nat.le_trans (hs.behind c hc) hmeasure⟩
  | choice first others =>
    have hfirst : (first :: others)[0]? = some first := rfl
    obtain ⟨next, hpick, htake, hnext, hmeasure⟩ := h.exists_pick hs.position hfound hfirst
    rw [proceed, hpick]
    refine ⟨_, rfl, ?_, ?_⟩
    · rw [funext h.chosen]
      simp only [Prospect.map, SearchSpace.proceed, SearchSpace.choose, Progress.map,
        SearchState.map, ← htake]
      split_ifs <;> rfl
    · rintro _ ⟨⟩
      exact stands_choose hs hfound hnext hmeasure
  | deadEnd reason => exact h.exists_backtrack hs reason
  | breakdown reason =>
    rw [proceed, h.step _ hs.position]
    exact ⟨_, rfl, rfl, by rintro _ ⟨⟩⟩

/-! ### Runs -/

/-- A checked search can go on from wherever its moves lead. -/
theorem stands_of_reaches (h : checked.Agrees space f I measure) (hs : checked.Stands I measure s)
    (hreach : checked.Reaches limit s next) : checked.Stands I measure next := by
  induction hreach with
  | refl => exact hs
  | tail _ hmove ih =>
    obtain ⟨-, found, hfound, hproceed⟩ := hmove
    obtain ⟨progress, hprogress, -, hstands⟩ := h.exists_proceed ih hfound
    exact hstands _ (Option.some.inj (hprogress.symm.trans hproceed))

/-- A checked run with enough moves does not fail, and records what the run records. -/
theorem run_eq_some (h : checked.Agrees space f I measure) {moves : Nat}
    (hs : checked.Stands I measure s) (hmoves : limit - s.trace.size < moves) :
    checked.run limit moves s = some (space.run limit (s.map f)) := by
  induction moves generalizing s with
  | zero => exact absurd hmoves (Nat.not_lt_zero _)
  | succ moves ih =>
    obtain ⟨found, hfound, hmap⟩ := h.prospect hs.position
    change space.prospect (s.map f).position = found.map f at hmap
    have hgoal : (space.prospect (s.map f).position).isGoal = found.isGoal := by
      rw [hmap]
      cases found <;> rfl
    rw [CheckedSpace.run, hfound]
    simp only [Option.bind_eq_bind, Option.bind_some]
    split_ifs with hstop
    · have hrun := SearchSpace.run_of_limit (s := s.map f) hstop.1 (hgoal.trans hstop.2)
      rw [h.step _ hs.position, hrun]
      rfl
    · obtain ⟨progress, hprogress, hproceed, hstands⟩ := h.exists_proceed hs hfound
      rw [← hmap] at hproceed
      have hgo : ¬(limit ≤ (s.map f).trace.size ∧
          (space.prospect (s.map f).position).isGoal = false) := by
        rw [hgoal]
        exact hstop
      rw [hprogress]
      cases progress with
      | ended trace =>
        rw [SearchSpace.run_of_ended hgo hproceed]
        rfl
      | running next =>
        have hsize : s.trace.size < next.trace.size := by
          have hlt := SearchSpace.size_lt_size_proceed space (s.map f)
            (space.prospect (s.map f).position)
          rwa [hproceed] at hlt
        have hnot := SearchSpace.isGoal_eq_false_of_proceed hproceed
        have hlimit : s.trace.size < limit :=
          Nat.not_le.mp fun hle => hgo ⟨hle, hnot⟩
        rw [SearchSpace.run_of_running hgo hproceed]
        exact ih (hstands next rfl) (by omega)

end CheckedSpace.Agrees

end GrammarTrace
