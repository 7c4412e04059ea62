import Mathlib.Data.List.Basic
import Mathlib.Data.List.TakeWhile
import Mathlib.Tactic.Common

/-!
# Stretches, pieces and numbers of a list

A list is divided into stretches by a property of its elements and into pieces by a separator, and
its elements can be numbered and counted. Replacing every element by a list divides the result as
the list was divided, if only the separator is replaced by the new one (`splitOn_flatMap`).
-/

namespace GrammarTrace

variable {α β : Type} {x : α}

/-! ### Stretches -/

section Stretches

variable {p : α → Bool} {before after front rest other later : List α}

lemma takeWhile_append_of_head (hbefore : ∀ a ∈ before, p a = true)
    (hafter : ∀ a ∈ after.head?, p a = false) : (before ++ after).takeWhile p = before := by
  rw [List.takeWhile_append_of_pos hbefore]
  cases after with
  | nil => simp
  | cons a after => simp [hafter a (by simp)]

lemma dropWhile_append_of_head (hbefore : ∀ a ∈ before, p a = true)
    (hafter : ∀ a ∈ after.head?, p a = false) : (before ++ after).dropWhile p = after := by
  rw [List.dropWhile_append_of_pos hbefore]
  cases after with
  | nil => rfl
  | cons a after => simp [hafter a (by simp)]

/-- An element stands behind a stretch that does not have it. -/
lemma exists_append_of_not_mem (hfront : x ∉ front) (h : front ++ rest = other ++ x :: later) :
    ∃ more, other = front ++ more ∧ rest = more ++ x :: later := by
  rcases List.append_eq_append_iff.mp h with ⟨more, hother, hrest⟩ | ⟨more, hsplit, hlater⟩
  · exact ⟨more, hother, hrest⟩
  · cases more with
    | nil => exact ⟨[], by simpa using hsplit.symm, hlater.symm⟩
    | cons first more =>
      obtain ⟨rfl, -⟩ := List.cons.inj hlater
      exact absurd (by simp [hsplit]) hfront

end Stretches

/-! ### Pieces -/

section Pieces

variable {separator piece text : List α} {pieces : List (List α)}

lemma isPrefix_intercalate : piece <+: separator.intercalate (piece :: pieces) := by
  cases pieces with
  | nil => simp
  | cons next pieces =>
    rw [List.intercalate_cons_cons, List.append_assoc]
    exact List.prefix_append ..

lemma isInfix_intercalate (h : piece ∈ pieces) : piece <:+: separator.intercalate pieces := by
  induction pieces with
  | nil => cases h
  | cons first pieces ih =>
    rcases List.mem_cons.mp h with rfl | h
    · exact isPrefix_intercalate.isInfix
    · rw [List.intercalate_cons_of_ne_nil (List.ne_nil_of_mem h)]
      exact (ih h).trans (List.suffix_append ..).isInfix

lemma exists_of_mem_intercalate (h : x ∈ separator.intercalate pieces) :
    x ∈ separator ∨ ∃ piece ∈ pieces, x ∈ piece := by
  induction pieces with
  | nil => cases h
  | cons first rest ih =>
    cases rest with
    | nil => exact .inr ⟨first, List.mem_cons_self, by simpa using h⟩
    | cons second rest =>
      rw [List.intercalate_cons_cons, List.mem_append, List.mem_append] at h
      rcases h with (h | h) | h
      · exact .inr ⟨first, List.mem_cons_self, h⟩
      · exact .inl h
      · obtain h | ⟨piece, hpiece, h⟩ := ih h
        · exact .inl h
        · exact .inr ⟨piece, List.mem_cons_of_mem _ hpiece, h⟩

lemma intercalate_concat_append (separator last later : List α) (init : List (List α)) :
    separator.intercalate (init ++ [last ++ later]) =
      separator.intercalate (init ++ [last]) ++ later := by
  induction init with
  | nil => simp
  | cons first init ih =>
    rw [List.cons_append, List.cons_append, List.intercalate_cons_of_ne_nil (by simp),
      List.intercalate_cons_of_ne_nil (by simp), ih, ← List.append_assoc]

lemma exists_splitOn_eq_concat [BEq α] (x : α) (text : List α) :
    ∃ init last, text.splitOn x = init ++ [last] :=
  (List.eq_nil_or_concat' _).resolve_left (List.splitOn_ne_nil x text)

variable [BEq α] [LawfulBEq α]

lemma isInfix_of_mem_splitOn (h : piece ∈ text.splitOn x) : piece <:+: text := by
  have hwithin : piece <:+: [x].intercalate (text.splitOn x) := isInfix_intercalate h
  rwa [List.intercalate_splitOn] at hwithin

lemma not_mem_of_mem_splitOn (h : piece ∈ text.splitOn x) : x ∉ piece := by
  induction text generalizing piece with
  | nil =>
    rw [List.splitOn_nil, List.mem_singleton] at h
    exact h ▸ List.not_mem_nil
  | cons y text ih =>
    rw [List.splitOn_cons_eq_if_modifyHead] at h
    split_ifs at h with hy
    · rcases List.mem_cons.mp h with rfl | h
      · exact List.not_mem_nil
      · exact ih h
    · obtain ⟨first, others, hsplit⟩ := List.exists_cons_of_ne_nil (List.splitOn_ne_nil x text)
      rw [hsplit] at h ih
      rcases List.mem_cons.mp h with rfl | h
      · have hne : x ≠ y := fun heq => hy (beq_iff_eq.mpr heq.symm)
        exact List.not_mem_cons_of_ne_of_not_mem hne (ih List.mem_cons_self)
      · exact ih (List.mem_cons_of_mem _ h)

lemma splitOn_append_of_not_mem {front : List α} (h : x ∉ front) (text : List α) :
    (front ++ text).splitOn x = (text.splitOn x).modifyHead (front ++ ·) := by
  induction front with
  | nil =>
    obtain ⟨first, others, hsplit⟩ := List.exists_cons_of_ne_nil (List.splitOn_ne_nil x text)
    simp [hsplit]
  | cons y front ih =>
    have hne : (y == x) = false := beq_eq_false_iff_ne.mpr fun heq => h (heq ▸ List.mem_cons_self)
    rw [List.cons_append, List.splitOn_cons_eq_if_modifyHead, hne, if_neg Bool.false_ne_true,
      ih fun hmem => h (List.mem_cons_of_mem _ hmem), List.modifyHead_modifyHead]
    rfl

/-- A list in which every element is replaced by a list is cut where the list itself is. -/
lemma splitOn_flatMap [BEq β] [LawfulBEq β] {y : β} {f : α → List β} (hself : f x = [y])
    (hother : ∀ a, a ≠ x → y ∉ f a) (text : List α) :
    (text.flatMap f).splitOn y = (text.splitOn x).map (List.flatMap f) := by
  induction text with
  | nil => simp
  | cons a text ih =>
    rw [List.flatMap_cons, List.splitOn_cons_eq_if_modifyHead]
    by_cases ha : a = x
    · subst ha
      rw [hself, List.singleton_append, List.splitOn_cons_eq_if_modifyHead, ih]
      simp
    · rw [splitOn_append_of_not_mem (hother a ha), ih, beq_eq_false_iff_ne.mpr ha,
        if_neg Bool.false_ne_true]
      obtain ⟨first, others, hsplit⟩ := List.exists_cons_of_ne_nil (List.splitOn_ne_nil x text)
      simp [hsplit]

end Pieces

/-! ### Numbers -/

section Numbers

variable {list : List α}

lemma exists_mem_zipIdx (number : Nat) (h : x ∈ list) : ∃ k, (x, k) ∈ list.zipIdx number := by
  rw [← List.zipIdx_map_fst number list] at h
  obtain ⟨⟨_, k⟩, hmem, rfl⟩ := List.mem_map.mp h
  exact ⟨k, hmem⟩

lemma flatMap_zipIdx (list : List α) (f : α → List β) :
    (list.zipIdx.flatMap fun numbered => f numbered.1) = list.flatMap f := by
  conv_rhs => rw [← List.zipIdx_map_fst 0 list, List.flatMap_map]

lemma zipIdx_pairwise (list : List α) (number : Nat) :
    (list.zipIdx number).Pairwise fun one other => one.2 < other.2 := by
  have hnumbers : ((list.zipIdx number).map Prod.snd).Pairwise (· < ·) := by
    rw [List.zipIdx_map_snd]
    exact List.pairwise_lt_range'
  exact List.pairwise_map.mp hnumbers

end Numbers

/-! ### Counts -/

section Counts

variable {list : List α}

lemma count_flatMap_of_ite [BEq β] {y : β} {f : α → List β} {p : α → Bool}
    (h : ∀ a ∈ list, (f a).count y = if p a then 1 else 0) :
    (list.flatMap f).count y = list.countP p := by
  induction list with
  | nil => rfl
  | cons a list ih =>
    rw [List.forall_mem_cons] at h
    rw [List.flatMap_cons, List.count_append, h.1, ih h.2, List.countP_cons, Nat.add_comm]

/-- A place is the only one with its element just if the element is counted once. -/
lemma forall_getElem?_iff [BEq α] [LawfulBEq α] {k : Nat} (h : list[k]? = some x) :
    (∀ i, list[i]? = some x ↔ i = k) ↔ list.count x = 1 := by
  induction list generalizing k with
  | nil => simp at h
  | cons a list ih =>
    cases k with
    | zero =>
      obtain rfl : a = x := by simpa using h
      rw [List.count_cons_self, Nat.add_eq_right, List.count_eq_zero, List.mem_iff_getElem?]
      constructor
      · rintro hall ⟨i, hi⟩
        exact Nat.succ_ne_zero i ((hall (i + 1)).mp hi)
      · intro hnone i
        cases i with
        | zero => simp
        | succ i => simpa using fun hi => hnone ⟨i, hi⟩
    | succ k =>
      have hk : list[k]? = some x := h
      by_cases ha : a = x
      · subst ha
        have hpos := List.count_pos_iff.mpr (List.mem_of_getElem? hk)
        rw [List.count_cons_self]
        constructor
        · intro hall
          exact absurd ((hall 0).mp rfl) (Nat.succ_ne_zero k).symm
        · omega
      · rw [List.count_cons_of_ne ha, ← ih hk]
        constructor
        · intro hall i
          simpa using hall (i + 1)
        · intro hall i
          cases i with
          | zero => simp [ha]
          | succ i => simpa using hall i

end Counts

end GrammarTrace
