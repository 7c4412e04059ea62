import Mathlib.Data.List.Induction
import GrammarTrace.Proofs.Search.Moves

/-!
# Stacks of choices in use

A stack drops a choice as soon as it has gone past it. A ledger drops nothing: it has an entry for
every choice that was ever pushed, with the numbers of the alternatives that were granted. Whatever
is pushed and however often a search is resumed, the stack grants what the ledger owes, which is the
next alternative of the youngest choice that has one left (`ChoiceStack.grants_youngest`). Resuming
until nothing is granted goes through all untried alternatives.
-/

namespace GrammarTrace

variable {S A : Type}

/-! ### Calls -/

/-- What is asked of a stack of choices. -/
inductive ChoiceStack.Call (S A : Type) where
  | push (choice : Choice S A)
  | resume

/-- The choice that a call pushes. -/
def ChoiceStack.Call.pushed? : Call S A → Option (Choice S A)
  | .push choice => some choice
  | .resume => none

/-- The stack after a call. -/
def ChoiceStack.call (stack : ChoiceStack S A) : Call S A → ChoiceStack S A
  | .push choice => choice :: stack
  | .resume => stack.resume.stack

/-- The stack after some calls; it is empty before them. -/
def ChoiceStack.ofCalls (calls : List (Call S A)) : ChoiceStack S A := calls.foldl call []

/-- What may come of resuming: the youngest choice with an untried alternative grants it, and the
choices above it are dropped; or no choice has one, and all of them are dropped. -/
inductive ChoiceStack.Resumes : ChoiceStack S A → Resumed S A → Prop where
  | granted {younger older : ChoiceStack S A} {r : Resumption S A}
      (hyounger : ∀ choice ∈ younger, choice.isExhausted = true)
      (halternative : r.choice.alternatives[r.choice.cursor]? = some r.alternative) :
      Resumes (younger ++ r.choice :: older) ⟨younger, some r, r.choice.advance :: older⟩
  | exhausted {stack : ChoiceStack S A} (hall : ∀ choice ∈ stack, choice.isExhausted = true) :
      Resumes stack ⟨stack.dropLast, none, []⟩

/-! ### Ledgers -/

/-- A choice that was pushed, with the numbers of the alternatives that were granted since. -/
structure Ledger.Entry (S A : Type) where
  pushed : Choice S A
  granted : List Nat := []

namespace Ledger.Entry

/-- The choice as it stands, its cursor behind what was granted. -/
def choice (entry : Entry S A) : Choice S A :=
  { entry.pushed with cursor := entry.pushed.cursor + entry.granted.length }

/-- The entry once the alternative at the cursor is granted. -/
def grant (entry : Entry S A) : Entry S A :=
  { entry with granted := entry.granted ++ [entry.choice.cursor] }

/-- Whether the alternatives that were granted are those from the first cursor on, each of them
once, as far as there are any. -/
structure IsRegular (entry : Entry S A) : Prop where
  granted_eq : entry.granted = List.range' entry.pushed.cursor entry.granted.length
  lt_length : ∀ i ∈ entry.granted, i < entry.pushed.alternatives.length

end Ledger.Entry

/-- Every choice that was pushed, the youngest first. -/
abbrev Ledger (S A : Type) := List (Ledger.Entry S A)

namespace Ledger

/-- The youngest choice that has an alternative left. -/
def owed? : Ledger S A → Option (Choice S A)
  | [] => none
  | entry :: older => if entry.choice.isExhausted then owed? older else some entry.choice

/-- The ledger once the alternative that it owes is granted. -/
def settle : Ledger S A → Ledger S A
  | [] => []
  | entry :: older =>
    if entry.choice.isExhausted then entry :: settle older else entry.grant :: older

/-- The ledger after a call. -/
def call (ledger : Ledger S A) : ChoiceStack.Call S A → Ledger S A
  | .push choice => { pushed := choice } :: ledger
  | .resume => ledger.settle

/-- The ledger of some calls. -/
def ofCalls (calls : List (ChoiceStack.Call S A)) : Ledger S A := calls.foldl call []

/-- A stack that has the choices of a ledger as they stand, but for some exhausted ones. -/
inductive IsKeptBy : Ledger S A → ChoiceStack S A → Prop where
  | nil : IsKeptBy [] []
  | kept {entry : Entry S A} {ledger : Ledger S A} {stack : ChoiceStack S A}
      (h : IsKeptBy ledger stack) : IsKeptBy (entry :: ledger) (entry.choice :: stack)
  | dropped {entry : Entry S A} {ledger : Ledger S A} {stack : ChoiceStack S A}
      (hentry : entry.choice.isExhausted = true) (h : IsKeptBy ledger stack) :
      IsKeptBy (entry :: ledger) stack

end Ledger

variable {stack older : ChoiceStack S A} {choice : Choice S A} {ledger : Ledger S A}
  {entry : Ledger.Entry S A} {next : ChoiceStack.Call S A} {calls : List (ChoiceStack.Call S A)}

/-! ### Resuming -/

lemma Choice.lt_of_not_isExhausted (h : ¬choice.isExhausted = true) :
    choice.cursor < choice.alternatives.length :=
  Nat.not_le.mp (mt isExhausted_iff.mpr h)

lemma ChoiceStack.resume_of_untried (h : choice.cursor < choice.alternatives.length) :
    resume (choice :: older) = ⟨[], some ⟨choice, h⟩, choice.advance :: older⟩ := by
  rw [resume, dif_pos h]

/-- An exhausted choice is passed over. -/
lemma ChoiceStack.resume_of_isExhausted (h : choice.isExhausted = true) :
    (resume (choice :: older)).resumption = (resume older).resumption ∧
      (resume (choice :: older)).stack = (resume older).stack := by
  rw [resume, dif_neg (Nat.not_lt.mpr (Choice.isExhausted_iff.mp h))]
  dsimp only
  split_ifs <;> exact ⟨rfl, rfl⟩

lemma ChoiceStack.resumes_resume (stack : ChoiceStack S A) : stack.Resumes stack.resume := by
  cases h : stack.resume.resumption with
  | none =>
    obtain ⟨hall, hresume⟩ := resume_of_no_resumption h
    rw [hresume]
    exact .exhausted hall
  | some r =>
    obtain ⟨younger, older, rfl, hyounger, hresume⟩ := exists_of_resumption h
    rw [hresume]
    exact .granted hyounger (List.getElem?_eq_getElem r.untried)

/-! ### Stacks and their ledgers -/

lemma Ledger.Entry.choice_grant : entry.grant.choice = entry.choice.advance := by
  simp [grant, choice, Choice.advance, Nat.add_assoc]

namespace Ledger.IsKeptBy

/-- A stack grants what its ledger owes. -/
lemma resumption_eq (h : IsKeptBy ledger stack) :
    stack.resume.resumption.map Resumption.choice = ledger.owed? := by
  induction h with
  | nil => rfl
  | @kept entry ledger stack _ ih =>
    by_cases hentry : entry.choice.isExhausted = true
    · rw [owed?, if_pos hentry, (ChoiceStack.resume_of_isExhausted hentry).1, ih]
    · have huntried := Choice.lt_of_not_isExhausted hentry
      rw [owed?, if_neg hentry, ChoiceStack.resume_of_untried huntried, Option.map_some]
  | dropped hentry _ ih => rw [owed?, if_pos hentry, ih]

lemma settle (h : IsKeptBy ledger stack) : IsKeptBy ledger.settle stack.resume.stack := by
  induction h with
  | nil => exact .nil
  | @kept entry ledger stack hkept ih =>
    by_cases hentry : entry.choice.isExhausted = true
    · -- the stack loses the choice, and the ledger keeps its entry
      rw [Ledger.settle, if_pos hentry, (ChoiceStack.resume_of_isExhausted hentry).2]
      exact .dropped hentry ih
    · have huntried := Choice.lt_of_not_isExhausted hentry
      rw [Ledger.settle, if_neg hentry, ChoiceStack.resume_of_untried huntried,
        ← Entry.choice_grant]
      exact .kept hkept
  | dropped hentry _ ih =>
    rw [Ledger.settle, if_pos hentry]
    exact .dropped hentry ih

/-- Every call leaves a stack and its ledger together. -/
lemma call (h : IsKeptBy ledger stack) (next : ChoiceStack.Call S A) :
    IsKeptBy (ledger.call next) (stack.call next) := by
  cases next with
  | push choice =>
    have hkept : IsKeptBy ({ pushed := choice } :: ledger) _ := .kept h
    exact hkept
  | resume => exact h.settle

end Ledger.IsKeptBy

@[simp] lemma ChoiceStack.ofCalls_concat :
    ofCalls (calls ++ [next]) = (ofCalls calls).call next := by
  simp [ofCalls]

@[simp] lemma Ledger.ofCalls_concat : ofCalls (calls ++ [next]) = (ofCalls calls).call next := by
  simp [ofCalls]

lemma Ledger.isKeptBy_ofCalls (calls : List (ChoiceStack.Call S A)) :
    IsKeptBy (ofCalls calls) (ChoiceStack.ofCalls calls) := by
  induction calls using List.reverseRecOn with
  | nil => exact .nil
  | append_singleton calls next ih =>
    rw [ofCalls_concat, ChoiceStack.ofCalls_concat]
    exact ih.call next

/-! ### What a ledger shows -/

@[simp] lemma Ledger.map_pushed_settle (ledger : Ledger S A) :
    ledger.settle.map Entry.pushed = ledger.map Entry.pushed := by
  induction ledger with
  | nil => rfl
  | cons entry older ih =>
    rw [settle]
    split_ifs
    · rw [List.map_cons, ih, List.map_cons]
    · rfl

/-- The entries of a ledger are the choices that were pushed. -/
lemma Ledger.map_pushed_ofCalls (calls : List (ChoiceStack.Call S A)) :
    (ofCalls calls).map Entry.pushed = (calls.filterMap ChoiceStack.Call.pushed?).reverse := by
  induction calls using List.reverseRecOn with
  | nil => rfl
  | append_singleton calls next ih =>
    cases next with
    | push choice => simp [Ledger.call, ChoiceStack.Call.pushed?, ih]
    | resume => simp [Ledger.call, ChoiceStack.Call.pushed?, ih]

lemma Ledger.Entry.isRegular_new : (⟨choice, []⟩ : Entry S A).IsRegular :=
  ⟨rfl, List.forall_mem_nil _⟩

lemma Ledger.Entry.IsRegular.grant (h : entry.IsRegular)
    (hopen : ¬entry.choice.isExhausted = true) : entry.grant.IsRegular where
  granted_eq := by
    have hgranted : entry.granted ++ [entry.choice.cursor] =
        List.range' entry.pushed.cursor (entry.granted.length + 1) := by
      rw [List.range'_1_concat, ← h.granted_eq]
      rfl
    simpa [Entry.grant] using hgranted
  lt_length := by
    have hcursor : entry.choice.cursor < entry.pushed.alternatives.length :=
      Choice.lt_of_not_isExhausted hopen
    rw [Entry.grant, List.forall_mem_append, List.forall_mem_singleton]
    exact ⟨h.lt_length, hcursor⟩

lemma Ledger.forall_isRegular_settle (h : ∀ entry ∈ ledger, entry.IsRegular) :
    ∀ entry ∈ ledger.settle, entry.IsRegular := by
  induction ledger with
  | nil => exact h
  | cons entry older ih =>
    obtain ⟨hentry, holder⟩ := List.forall_mem_cons.mp h
    rw [settle]
    split_ifs with hexhausted
    · exact List.forall_mem_cons.mpr ⟨hentry, ih holder⟩
    · exact List.forall_mem_cons.mpr ⟨hentry.grant hexhausted, holder⟩

lemma Ledger.forall_isRegular_ofCalls (calls : List (ChoiceStack.Call S A)) :
    ∀ entry ∈ ofCalls calls, entry.IsRegular := by
  induction calls using List.reverseRecOn with
  | nil => exact List.forall_mem_nil _
  | append_singleton calls next ih =>
    rw [ofCalls_concat]
    cases next with
    | push choice => exact List.forall_mem_cons.mpr ⟨Entry.isRegular_new, ih⟩
    | resume => exact forall_isRegular_settle ih

/-! ### Resuming until nothing is granted -/

/-- The number of untried alternatives on a stack. -/
def ChoiceStack.untriedCount : ChoiceStack S A → Nat
  | [] => 0
  | choice :: older => choice.alternatives.length - choice.cursor + untriedCount older

lemma ChoiceStack.untriedCount_append (younger older : ChoiceStack S A) :
    untriedCount (younger ++ older) = untriedCount younger + untriedCount older := by
  induction younger with
  | nil => simp [untriedCount]
  | cons choice younger ih => simp [untriedCount, ih, Nat.add_assoc]

lemma ChoiceStack.untriedCount_resume_lt {r : Resumption S A}
    (h : stack.resume.resumption = some r) :
    stack.resume.stack.untriedCount < stack.untriedCount := by
  obtain ⟨younger, older, rfl, -, hresume⟩ := exists_of_resumption h
  have huntried := r.untried
  simp only [hresume, untriedCount_append, untriedCount, Choice.advance]
  omega

/-- What comes of resuming a search until nothing is granted. -/
structure Drained (S A : Type) where
  granted : List (Resumption S A)
  /-- The choices that were reported as dropped. -/
  reported : List (Choice S A)
  stack : ChoiceStack S A

/-- Resume a search until nothing is granted. -/
def ChoiceStack.drain (stack : ChoiceStack S A) : Drained S A :=
  match _h : stack.resume.resumption with
  | none => ⟨[], stack.resume.abandoned, stack.resume.stack⟩
  | some r =>
    let rest := drain stack.resume.stack
    ⟨r :: rest.granted, stack.resume.abandoned ++ rest.reported, rest.stack⟩
termination_by stack.untriedCount
decreasing_by exact untriedCount_resume_lt _h

/-- A choice with its cursor at each of its untried alternatives. -/
def Choice.untried (choice : Choice S A) : List (Choice S A) :=
  (List.range' choice.cursor (choice.alternatives.length - choice.cursor)).map fun i =>
    { choice with cursor := i }

/-- A choice with its cursor behind its last alternative. -/
def Choice.spent (choice : Choice S A) : Choice S A :=
  { choice with cursor := max choice.cursor choice.alternatives.length }

lemma Choice.untried_of_isExhausted (h : choice.isExhausted = true) : choice.untried = [] := by
  rw [untried, Nat.sub_eq_zero_of_le (isExhausted_iff.mp h), List.range'_zero, List.map_nil]

lemma Choice.spent_of_isExhausted (h : choice.isExhausted = true) : choice.spent = choice := by
  rw [spent, Nat.max_eq_left (isExhausted_iff.mp h)]

lemma Choice.untried_eq_cons (h : choice.cursor < choice.alternatives.length) :
    choice.untried = choice :: choice.advance.untried := by
  have hcount : choice.alternatives.length - choice.cursor =
      choice.alternatives.length - (choice.cursor + 1) + 1 := by omega
  rw [untried, hcount, List.range'_succ, List.map_cons]
  rfl

lemma Choice.spent_advance (h : choice.cursor < choice.alternatives.length) :
    choice.advance.spent = choice.spent := by
  have hmax : max (choice.cursor + 1) choice.alternatives.length =
      max choice.cursor choice.alternatives.length := by omega
  simp [advance, spent, hmax]

lemma map_spent_of_isExhausted (h : ∀ choice ∈ stack, choice.isExhausted = true) :
    stack.map Choice.spent = stack :=
  calc stack.map Choice.spent
    _ = stack.map id := List.map_congr_left fun choice hmem =>
      Choice.spent_of_isExhausted (h choice hmem)
    _ = stack := List.map_id stack

lemma flatMap_untried_of_isExhausted (h : ∀ choice ∈ stack, choice.isExhausted = true) :
    stack.flatMap Choice.untried = [] :=
  List.flatMap_eq_nil_iff.mpr fun choice hmem => Choice.untried_of_isExhausted (h choice hmem)

/-- What comes of resuming a search until nothing is granted, read off the stack. -/
structure ChoiceStack.Drains (stack : ChoiceStack S A) (drained : Drained S A) : Prop where
  granted : drained.granted.map Resumption.choice = stack.flatMap Choice.untried
  reported : drained.reported = (stack.map Choice.spent).dropLast
  stack : drained.stack = []

lemma ChoiceStack.drains_drain (stack : ChoiceStack S A) : stack.Drains stack.drain := by
  induction stack using ChoiceStack.drain.induct with
  | case1 stack hnone =>
    obtain ⟨hall, hresume⟩ := resume_of_no_resumption hnone
    have hdrain : stack.drain = ⟨[], stack.dropLast, []⟩ := by
      rw [drain]
      split
      · rw [hresume]
      · next hsome => cases hnone.symm.trans hsome
    rw [hdrain]
    exact ⟨(flatMap_untried_of_isExhausted hall).symm, by rw [map_spent_of_isExhausted hall], rfl⟩
  | case2 stack r hsome ih =>
    obtain ⟨younger, older, rfl, hyounger, hresume⟩ := exists_of_resumption hsome
    have hdrain : drain (younger ++ r.choice :: older) =
        ⟨r :: (drain (r.choice.advance :: older)).granted,
          younger ++ (drain (r.choice.advance :: older)).reported,
          (drain (r.choice.advance :: older)).stack⟩ := by
      rw [drain]
      split
      · next hnone => cases hnone.symm.trans hsome
      · next granted hgranted =>
        cases hsome.symm.trans hgranted
        rw [hresume]
    rw [hresume] at ih
    rw [hdrain]
    constructor
    case granted =>
      rw [List.map_cons, ih.granted, List.flatMap_append, flatMap_untried_of_isExhausted hyounger,
        List.nil_append, List.flatMap_cons, List.flatMap_cons, Choice.untried_eq_cons r.untried,
        List.cons_append]
    case reported =>
      rw [ih.reported, List.map_append, map_spent_of_isExhausted hyounger,
        List.dropLast_append_of_ne_nil (by simp), List.map_cons, List.map_cons,
        Choice.spent_advance r.untried]
    case stack => exact ih.stack

/-- Whatever was pushed and however often the search was resumed, the next time that it is resumed
it is granted what its ledger owes, with the choices above that one dropped, and every choice that
is reported is exhausted. No alternative is granted twice, and none is skipped. Resuming until
nothing is granted goes through the untried alternatives, the youngest choice first, and reports
every choice but the oldest once. -/
theorem ChoiceStack.grants_youngest (calls : List (Call S A)) :
    ((ofCalls calls).resume.resumption.map Resumption.choice = (Ledger.ofCalls calls).owed? ∧
      (ofCalls calls).Resumes (ofCalls calls).resume) ∧
    ((Ledger.ofCalls calls).map Ledger.Entry.pushed = (calls.filterMap Call.pushed?).reverse ∧
      ∀ entry ∈ Ledger.ofCalls calls, entry.IsRegular) ∧
    (ofCalls calls).Drains (ofCalls calls).drain := by
  have hkept := Ledger.isKeptBy_ofCalls calls
  refine ⟨⟨hkept.resumption_eq, resumes_resume _⟩, ⟨?_, ?_⟩, drains_drain _⟩
  · exact Ledger.map_pushed_ofCalls calls
  · exact Ledger.forall_isRegular_ofCalls calls

end GrammarTrace
