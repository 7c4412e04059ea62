import Mathlib.Data.List.Lex
import GrammarTrace.Proofs.Search.Exhaustion
import GrammarTrace.Proofs.Search.Links
import GrammarTrace.Proofs.Search.Soundness

/-!
# A search finds the first way to the goal

The alternatives that lead to the position of a search can be read off its history (`survivors`).
They are a trail from where the search started, along which the stack has a choice for every
survivor that can still be replaced (`SearchSpace.Trail`). All ways to the goal that come before the
survivors in lexicographic order have been tried, so a search that reaches the goal has found the
first one (`SearchSpace.first_of_accepted`).
-/

namespace GrammarTrace

/-! ### Lexicographic order -/

lemma exists_of_lt_append {path left right : List Nat} (h : path < left ++ right) :
    path < left ∨ ∃ rest, path = left ++ rest ∧ rest < right := by
  induction left generalizing path with
  | nil => exact .inr ⟨path, rfl, h⟩
  | cons i left ih =>
    cases path with
    | nil => exact .inl (List.nil_lt_cons i left)
    | cons j path =>
      rw [List.cons_append, List.cons_lt_cons_iff] at h
      rcases h with hlt | ⟨rfl, h⟩
      · exact .inl (List.cons_lt_cons_iff.mpr (.inl hlt))
      · rcases ih h with hlt | ⟨rest, rfl, hrest⟩
        · exact .inl (List.cons_lt_cons_iff.mpr (.inr ⟨rfl, hlt⟩))
        · exact .inr ⟨rest, rfl, hrest⟩

lemma lt_append_of_lt {path left : List Nat} (right : List Nat) (h : path < left) :
    path < left ++ right :=
  List.Lex.append_right _ right h

lemma append_cons_lt {left rest : List Nat} {i j : Nat} (h : j < i) :
    left ++ j :: rest < left ++ [i] :=
  List.append_left_lt (List.cons_lt_cons_iff.mpr (.inl h))

/-! ### Trails -/

variable {P A : Type} {standing before : List Survivor}

/-- The way from where a search started to a position, with the survivors and the choices along it.
A survivor without a second alternative has no choice on the stack. -/
inductive SearchSpace.Trail (space : SearchSpace P A) (start : P) :
    List Survivor → ChoiceStack P A → P → Prop where
  | start : Trail space start [] [] start
  | forced {standing : List Survivor} {choices : ChoiceStack P A} {p next : P} {action : Action}
      (h : Trail space start standing choices p)
      (hprospect : space.prospect p = .forced action next) : Trail space start standing choices next
  | sole {standing : List Survivor} {choices : ChoiceStack P A} {p : P} {a : A} {id : Nat}
      (h : Trail space start standing choices p) (hprospect : space.prospect p = .choice a [])
      (hid : ∀ survivor ∈ standing, survivor.step < id) :
      Trail space start (standing ++ [⟨id, 0⟩]) choices (space.take p a)
  | choice {standing : List Survivor} {choices : ChoiceStack P A} {c : Choice P A} {first a : A}
      {others : List A} {i : Nat} (h : Trail space start standing choices c.snapshot)
      (hprospect : space.prospect c.snapshot = .choice first others)
      (halternatives : c.alternatives = first :: others) (hcursor : c.cursor = i + 1)
      (ha : c.alternatives[i]? = some a) (hid : ∀ survivor ∈ standing, survivor.step < c.step) :
      Trail space start (standing ++ [⟨c.step, i⟩]) (c :: choices) (space.take c.snapshot a)

variable {space : SearchSpace P A} {start p next : P} {choices newer older : ChoiceStack P A}
  {c : Choice P A} {first a : A} {others : List A} {action reason : Action} {i : Nat}
  {path : List Nat}

lemma SearchSpace.succeeds_forced (h : space.prospect p = .forced action next) :
    space.Succeeds p path ↔ space.Succeeds next path := by
  constructor
  · intro hpath
    cases hpath with
    | goal hgoal => simp [h] at hgoal
    | choice hchoice => simp [h] at hchoice
    | forced hforced hpath =>
      simp only [h, Prospect.forced.injEq] at hforced
      exact hforced.2 ▸ hpath
  · exact .forced h

lemma SearchSpace.Succeeds.exists_cons (hpath : space.Succeeds p path)
    (h : space.prospect p = .choice first others) :
    ∃ i a rest, path = i :: rest ∧ (first :: others)[i]? = some a ∧
      space.Succeeds (space.take p a) rest := by
  cases hpath with
  | goal hgoal => simp [h] at hgoal
  | forced hforced => simp [h] at hforced
  | choice hchoice ha hpath =>
    simp only [h, Prospect.choice.injEq] at hchoice
    obtain ⟨rfl, rfl⟩ := hchoice
    exact ⟨_, _, _, rfl, ha, hpath⟩

lemma SearchSpace.succeeds_choice (h : space.prospect p = .choice first others)
    (ha : (first :: others)[i]? = some a) :
    space.Succeeds p (i :: path) ↔ space.Succeeds (space.take p a) path := by
  constructor
  · intro hpath
    obtain ⟨j, b, rest, heq, hb, hrest⟩ := hpath.exists_cons h
    obtain ⟨rfl, rfl⟩ := List.cons.inj heq
    obtain rfl : a = b := Option.some.inj (ha.symm.trans hb)
    exact hrest
  · exact .choice h ha

/-- The ways on from the end of a trail are those that begin with its survivors. -/
lemma SearchSpace.Trail.succeeds_append (h : space.Trail start standing choices p) :
    space.Succeeds start (indices standing ++ path) ↔ space.Succeeds p path := by
  induction h generalizing path with
  | start => rfl
  | forced _ hprospect ih => rw [ih, succeeds_forced hprospect]
  | sole _ hprospect _ ih =>
    rw [indices_push, List.append_assoc, List.singleton_append, ih, succeeds_choice hprospect rfl]
  | choice _ hprospect halternatives _ ha _ ih =>
    rw [halternatives] at ha
    rw [indices_push, List.append_assoc, List.singleton_append, ih, succeeds_choice hprospect ha]

/-! ### Ways that come before a trail -/

/-- Whether no way from `start` to the goal comes before `path` in lexicographic order. -/
def SearchSpace.NoneBefore (space : SearchSpace P A) (start : P) (path : List Nat) : Prop :=
  ∀ other, space.Succeeds start other → ¬other < path

/-- Whether in addition no way from `start` to the goal begins with `path`. -/
def SearchSpace.NoneUpTo (space : SearchSpace P A) (start : P) (path : List Nat) : Prop :=
  ∀ other, space.Succeeds start other → ¬other < path ∧ ¬path <+: other

lemma SearchSpace.Trail.exists_of_prefix (htrail : space.Trail start standing choices p)
    (hprospect : space.prospect p = .choice first others) (hpath : space.Succeeds start path)
    (h : indices standing <+: path) :
    ∃ j a rest, path = indices standing ++ j :: rest ∧ (first :: others)[j]? = some a := by
  obtain ⟨rest, rfl⟩ := h
  obtain ⟨j, a, rest, rfl, ha, -⟩ := (htrail.succeeds_append.mp hpath).exists_cons hprospect
  exact ⟨j, a, rest, rfl, ha⟩

/-- A way that comes before an alternative at the end of a trail branches off along the trail or
takes an earlier alternative. -/
lemma SearchSpace.Trail.lt_or_exists_of_lt (htrail : space.Trail start standing choices p)
    (hprospect : space.prospect p = .choice first others) (hpath : space.Succeeds start path)
    (hlt : path < indices standing ++ [i]) :
    path < indices standing ∨ ∃ j rest, j < i ∧ path = indices standing ++ j :: rest := by
  rcases exists_of_lt_append hlt with hlt | ⟨rest, rfl, hrest⟩
  · exact .inl hlt
  · obtain ⟨j, a, later, heq, -⟩ :=
      htrail.exists_of_prefix hprospect hpath (List.prefix_append ..)
    obtain rfl := List.append_cancel_left heq
    rw [List.cons_lt_cons_iff] at hrest
    rcases hrest with hj | ⟨-, hnil⟩
    · exact .inr ⟨j, later, hj, rfl⟩
    · exact absurd hnil (List.not_lt_nil later)

lemma SearchSpace.NoneBefore.upTo (h : space.NoneBefore start (indices standing))
    (htrail : space.Trail start standing choices p)
    (hdeadEnd : space.prospect p = .deadEnd reason) :
    space.NoneUpTo start (indices standing) := by
  intro other hother
  refine ⟨h other hother, ?_⟩
  rintro ⟨rest, rfl⟩
  exact not_solvable_of_deadEnd hdeadEnd ⟨rest, htrail.succeeds_append.mp hother⟩

lemma SearchSpace.NoneBefore.push_zero (h : space.NoneBefore start (indices standing))
    (htrail : space.Trail start standing choices p)
    (hprospect : space.prospect p = .choice first others) :
    space.NoneBefore start (indices standing ++ [0]) := by
  intro other hother hlt
  rcases htrail.lt_or_exists_of_lt hprospect hother hlt with hlt | ⟨j, -, hj, -⟩
  · exact h other hother hlt
  · exact Nat.not_lt_zero j hj

/-- When an alternative has been tried in full, the next one is the first that is left. -/
lemma SearchSpace.NoneUpTo.advance (h : space.NoneUpTo start (indices standing ++ [i]))
    (htrail : space.Trail start standing choices p)
    (hprospect : space.prospect p = .choice first others) :
    space.NoneBefore start (indices standing ++ [i + 1]) := by
  intro other hother hlt
  obtain ⟨hbefore, hthrough⟩ := h other hother
  rcases htrail.lt_or_exists_of_lt hprospect hother hlt with hlt | ⟨j, rest, hj, rfl⟩
  · exact hbefore (lt_append_of_lt [i] hlt)
  · rcases Nat.lt_succ_iff_lt_or_eq.mp hj with hj | rfl
    · exact hbefore (append_cons_lt hj)
    · exact hthrough ⟨rest, by simp⟩

/-- When the last alternative has been tried in full, so has what leads to the choice. -/
lemma SearchSpace.NoneUpTo.all (h : space.NoneUpTo start (indices standing ++ [i]))
    (htrail : space.Trail start standing choices p)
    (hprospect : space.prospect p = .choice first others) (hlast : others.length ≤ i) :
    space.NoneUpTo start (indices standing) := by
  intro other hother
  obtain ⟨hbefore, hthrough⟩ := h other hother
  refine ⟨fun hlt => hbefore (lt_append_of_lt [i] hlt), ?_⟩
  intro hprefix
  obtain ⟨j, a, rest, rfl, ha⟩ := htrail.exists_of_prefix hprospect hother hprefix
  have hj : j < (first :: others).length := (List.getElem?_eq_some_iff.mp ha).1
  rcases Nat.lt_or_eq_of_le (Nat.le_trans (Nat.le_of_lt_succ hj) hlast) with hj | rfl
  · exact hbefore (append_cons_lt hj)
  · exact hthrough ⟨rest, by simp⟩

/-- The part of a trail that leads to one of its choices. -/
structure SearchSpace.CutAt (space : SearchSpace P A) (start : P) (standing : List Survivor)
    (c : Choice P A) (older : ChoiceStack P A) (before : List Survivor) (i : Nat) : Prop where
  split : ∃ after, standing = before ++ ⟨c.step, i⟩ :: after
  cursor : c.cursor = i + 1
  earlier : ∀ survivor ∈ before, survivor.step < c.step
  trail : space.Trail start before older c.snapshot
  prospect : ∃ first others, space.prospect c.snapshot = .choice first others ∧
    c.alternatives = first :: others

lemma SearchSpace.CutAt.push (h : space.CutAt start standing c older before i) (s : Survivor) :
    space.CutAt start (standing ++ [s]) c older before i := by
  obtain ⟨⟨after, rfl⟩, hcursor, hearlier, htrail, hprospect⟩ := h
  exact ⟨⟨after ++ [s], by simp⟩, hcursor, hearlier, htrail, hprospect⟩

lemma SearchSpace.CutAt.trail_advance {r : Resumption P A}
    (h : space.CutAt start standing r.choice older before i) :
    space.Trail start (before ++ [⟨r.choice.step, i + 1⟩]) (r.choice.advance :: older)
      (space.take r.choice.snapshot r.alternative) := by
  obtain ⟨first, others, hprospect, halternatives⟩ := h.prospect
  refine .choice (c := r.choice.advance) h.trail hprospect halternatives ?_ ?_ h.earlier
  · change r.choice.cursor + 1 = _
    rw [h.cursor]
  · change r.choice.alternatives[i + 1]? = some r.alternative
    rw [← h.cursor, List.getElem?_eq_getElem r.untried]
    rfl

/-- The number of retries, which the history tells, is that of the alternative which the stack
grants. -/
lemma SearchSpace.CutAt.survivors_retry (hspace : space.IsLabelled) {r : Resumption P A}
    {steps : List Step} (h : space.CutAt start (survivors steps) r.choice older before i)
    (hlinked : space.Linked steps (newer ++ r.choice :: older))
    (hall : ∀ d ∈ newer, d.isExhausted = true) :
    survivors (steps ++ newer.map space.abandonStep ++ [space.retryStep r]) =
      before ++ [⟨r.choice.step, i + 1⟩] := by
  obtain ⟨⟨after, hsplit⟩, hcursor, hearlier, -, -⟩ := h
  have hpending := (hlinked.abandonAll hspace hall).pending r.choice List.mem_cons_self
  rw [survivors_push, survivors_append_of_role, hsplit,
    Step.revise_retry (hspace.role_retryStep r) rfl hearlier, hpending.retried, hcursor]
  intro step hstep
  obtain ⟨c, -, rfl⟩ := List.mem_map.mp hstep
  simp [hspace.role_abandonStep c]

/-- If nothing up to the end of a trail leads to the goal, and all choices after one of them are
exhausted, then the next alternative of that choice is the first that is left. -/
lemma SearchSpace.Trail.exists_cutAt (h : space.Trail start standing choices p)
    (hnone : space.NoneUpTo start (indices standing)) (hstack : choices = newer ++ c :: older)
    (hall : ∀ d ∈ newer, d.isExhausted = true) :
    ∃ before i, space.CutAt start standing c older before i ∧
      space.NoneBefore start (indices before ++ [i + 1]) := by
  -- by induction on the trail, from its end back to the choice
  induction h generalizing newer with
  | start => simp at hstack
  | forced _ _ ih => exact ih hnone hstack hall
  | sole htrail hprospect _ ih =>
    rw [indices_push] at hnone
    obtain ⟨before, i, hcut, hnext⟩ := ih (hnone.all htrail hprospect (Nat.le_refl _)) hstack hall
    exact ⟨before, i, hcut.push _, hnext⟩
  | @choice standing _ d _ _ _ i htrail hprospect halternatives hcursor ha hid ih =>
    rw [indices_push] at hnone
    cases newer with
    | nil =>
      obtain ⟨rfl, rfl⟩ := List.cons.inj hstack
      exact ⟨standing, i, ⟨⟨[], rfl⟩, hcursor, hid, htrail, _, _, hprospect, halternatives⟩,
        hnone.advance htrail hprospect⟩
    | cons e newer =>
      obtain ⟨rfl, hrest⟩ := List.cons.inj hstack
      rw [List.forall_mem_cons] at hall
      have hlast := Choice.isExhausted_iff.mp hall.1
      rw [halternatives, hcursor, List.length_cons, Nat.add_le_add_iff_right] at hlast
      obtain ⟨before, j, hcut, hnext⟩ := ih (hnone.all htrail hprospect hlast) hrest hall.2
      exact ⟨before, j, hcut.push _, hnext⟩

/-! ### The search -/

/-- A search that has come along a trail, and has tried all ways that come before it. -/
structure SearchSpace.Explores (space : SearchSpace P A) (start : P) (s : SearchState P A) :
    Prop where
  linked : space.Linked s.trace.toList s.choices
  trail : space.Trail start (survivors s.trace.toList) s.choices s.position
  recent : ∀ survivor ∈ survivors s.trace.toList, survivor.step < s.trace.size
  first : space.NoneBefore start (indices (survivors s.trace.toList))

variable {s after : SearchState P A} {limit : Nat} {trace : Trace}

lemma SearchSpace.Explores.choose (hspace : space.IsLabelled) (h : space.Explores start s)
    (hprospect : space.prospect s.position = .choice first others) :
    space.Explores start (space.choose s first others) := by
  have hsurvivors : survivors (space.choose s first others).trace.toList =
      survivors s.trace.toList ++ [⟨s.trace.size, 0⟩] := by
    rw [SearchSpace.choose, Trace.toList_push, survivors_push,
      Step.revise_choice (hspace.role_choiceStep ..), Trace.length_toList]
  refine ⟨h.linked.choose hspace, ?_, ?_, ?_⟩
  · rw [hsurvivors]
    simp only [SearchSpace.choose]
    split_ifs with hothers
    · obtain rfl := List.isEmpty_iff.mp hothers
      exact h.trail.sole hprospect h.recent
    · exact .choice (c := ⟨s.position, first :: others, s.trace.size, 1⟩) h.trail hprospect rfl rfl
        rfl h.recent
  · rw [hsurvivors, List.forall_mem_append, List.forall_mem_singleton]
    simp only [SearchSpace.choose, Trace.size_push]
    exact ⟨fun survivor hmem => Nat.lt_succ_of_lt (h.recent survivor hmem), Nat.lt_succ_self _⟩
  · rw [hsurvivors, indices_push]
    exact h.first.push_zero h.trail hprospect

lemma SearchSpace.Explores.resume (hspace : space.IsLabelled) (h : space.Explores start s)
    {r : Resumption P A} {exhausted older : ChoiceStack P A}
    (hprospect : space.prospect s.position = .deadEnd reason)
    (hstack : s.choices = exhausted ++ r.choice :: older)
    (hall : ∀ choice ∈ exhausted, choice.isExhausted = true) :
    space.Explores start ⟨space.take r.choice.snapshot r.alternative, r.choice.advance :: older,
      (s.trace.pushAll (exhausted.map space.abandonStep)).push (space.retryStep r)⟩ := by
  have hlinked := (SearchSpace.Move.resume hprospect hstack hall).linked hspace h.linked
  obtain ⟨before, i, hcut, hfirst⟩ :=
    h.trail.exists_cutAt (h.first.upTo h.trail hprospect) hstack hall
  have hsurvivors : survivors
      ((s.trace.pushAll (exhausted.map space.abandonStep)).push (space.retryStep r)).toList =
      before ++ [⟨r.choice.step, i + 1⟩] := by
    rw [Trace.toList_push, Trace.toList_pushAll]
    exact hcut.survivors_retry hspace (hstack ▸ h.linked) hall
  refine ⟨hlinked, ?_, ?_, ?_⟩
  · rw [hsurvivors]
    exact hcut.trail_advance
  · -- the choice that is taken up again was made before
    obtain ⟨choice, hmade, -⟩ := (hlinked.pending _ List.mem_cons_self).made
    have hlt := hmade.lt
    rw [Trace.length_toList] at hlt
    rw [hsurvivors, List.forall_mem_append, List.forall_mem_singleton]
    exact ⟨fun survivor hmem => Nat.lt_trans (hcut.earlier survivor hmem) hlt, hlt⟩
  · rw [hsurvivors, indices_push]
    exact hfirst

/-- Every move leaves behind only ways that do not lead to the goal. -/
lemma SearchSpace.Move.explores (hspace : space.IsLabelled) (h : space.Move s after)
    (hs : space.Explores start s) : space.Explores start after := by
  cases h with
  | resume h hstack hall => exact hs.resume hspace h hstack hall
  | choose h => exact hs.choose hspace h
  | @forced action next h =>
    have hsurvivors : survivors (s.trace.push (space.step next action)).toList =
        survivors s.trace.toList := by
      rw [Trace.toList_push, survivors_push_of_role] <;> simp [hspace.step, hspace.forced h]
    refine ⟨SearchSpace.Move.linked hspace (.forced h) hs.linked, ?_, ?_, ?_⟩
    · rw [hsurvivors]
      exact hs.trail.forced h
    · rw [hsurvivors]
      intro survivor hmem
      exact Nat.lt_trans (hs.recent survivor hmem) (by simp)
    · rw [hsurvivors]
      exact hs.first

lemma SearchSpace.Reaches.explores (hspace : space.IsLabelled) (h : space.Reaches limit s after)
    (hs : space.Explores start s) : space.Explores start after := by
  induction h with
  | refl => exact hs
  | tail _ hmove ih => exact hmove.2.explores hspace ih

lemma SearchSpace.explores_start (h : ∀ step ∈ trace.toList, step.action.role.IsPlain) :
    space.Explores p ⟨p, [], trace⟩ := by
  have hsurvivors : survivors trace.toList = [] := by
    rw [← List.nil_append trace.toList, survivors_append_of_role]
    · rfl
    · intro step hstep
      exact ⟨(h step hstep).ne_choice, (h step hstep).ne_retry⟩
  refine ⟨linked_of_plain h, ?_, ?_, ?_⟩
  · rw [hsurvivors]
    exact .start
  · simp [hsurvivors]
  · intro other _
    simp [hsurvivors, indices]

lemma SearchSpace.Ends.survivors_of_goal {alternatives : List A} (hspace : space.IsLabelled)
    (h : space.Ends limit s trace) (hgoal : space.prospect s.position = .goal alternatives) :
    survivors trace.toList = survivors s.trace.toList := by
  cases h with
  | goal =>
    rw [Trace.toList_push, survivors_push_of_role] <;>
      simp [goalStep, hspace.step, Action.role]
  | limit _ hother => simp [hgoal, Prospect.isGoal] at hother
  | breakdown hother => simp [hgoal] at hother
  | deadEnd hother => simp [hgoal] at hother
  | exhausted hother => simp [hgoal] at hother

/-- The choices that survive in an accepting search are the first way to the goal. -/
theorem SearchSpace.first_of_accepted (hspace : space.IsLabelled) (hmarks : space.MarksGoals)
    (hplain : ∀ step ∈ trace.toList, step.action.role.IsPlain)
    (haccepted : (space.run limit ⟨p, [], trace⟩).verdict = .accepted) :
    space.Succeeds p (indices (survivors (space.run limit ⟨p, [], trace⟩).toList)) ∧
      space.NoneBefore p (indices (survivors (space.run limit ⟨p, [], trace⟩).toList)) := by
  obtain ⟨last, hreach, hends⟩ := space.exists_ends limit ⟨p, [], trace⟩
  have hexplores := hreach.explores hspace (explores_start hplain)
  obtain ⟨alternatives, hgoal⟩ := hends.exists_goal hmarks haccepted
  rw [hends.survivors_of_goal hspace hgoal]
  refine ⟨?_, hexplores.first⟩
  rw [← List.append_nil (indices _), hexplores.trail.succeeds_append]
  exact .goal hgoal

end GrammarTrace
