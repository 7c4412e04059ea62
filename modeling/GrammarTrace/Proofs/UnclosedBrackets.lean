import GrammarTrace.Proofs.ReductionSearch

/-!
# Where scanning fails

A `<` is unclosed if another `<` or the end of the text comes before its `>`. Scanning fails just if
a text has an unclosed `<`, and then at the first one, whatever the granularity. A search for a
reduction of such an input is a single step that says where
(`scan_fails_at_first_unclosed`).
-/

namespace GrammarTrace

/-! ### Unclosed brackets -/

/-- Whether a `<` that this text comes after is not closed: the text ends, or another `<` comes,
before any `>`. -/
inductive IsUnclosed : List Char → Prop where
  | ended {after : List Char} (h : '>' ∉ after) : IsUnclosed after
  | reopened {name : List Char} (later : List Char) (h : '>' ∉ name) :
      IsUnclosed (name ++ '<' :: later)

/-- Whether a text has an unclosed `<` after so many bytes. -/
def UnclosedAt (text : String) (position : Nat) : Prop :=
  ∃ before after : String, text = before ++ "<" ++ after ∧ IsUnclosed after.toList ∧
    position = before.utf8ByteSize

/-- Whether the first unclosed `<` of a text comes after so many bytes. -/
structure IsFirstUnclosed (text : String) (position : Nat) : Prop where
  unclosed : UnclosedAt text position
  le : ∀ other, UnclosedAt text other → position ≤ other

variable {granularity : Granularity} {position : Nat} {form : Form} {e : UnclosedBracket}
  {text : String} {chars front rest other later name after : List Char}

/-- A `<` with a name and a `>` behind it is closed. -/
lemma not_isUnclosed_of_name (hname : ∀ c ∈ name, isNameChar c = true) :
    ¬IsUnclosed (name ++ '>' :: after) := by
  have hbracket : '<' ∉ name := fun hmem => by simpa [isNameChar] using hname _ hmem
  generalize htext : name ++ '>' :: after = chars
  rintro (hended | ⟨later, hreopened⟩)
  · simp [← htext] at hended
  · obtain ⟨more, rfl, hmore⟩ := exists_append_of_not_mem hbracket htext
    cases more with
    | nil => simp at hmore
    | cons first more =>
      obtain ⟨rfl, -⟩ := List.cons.inj hmore
      simp at hreopened

/-- In a text that can be divided every `<` is closed, so an unclosed one comes after it. -/
lemma Scanned.isPrefix_of_unclosed (h : Scanned granularity front form)
    (hsplit : front ++ rest = other ++ '<' :: later) (hlater : IsUnclosed later) :
    front <+: other := by
  induction h generalizing other with
  | nil => exact List.nil_prefix
  | @name name after form hname hafter ih =>
    rw [List.cons_append, List.cons_append, List.append_assoc, List.cons_append] at hsplit
    cases other with
    | nil =>
      obtain ⟨-, rfl⟩ := List.cons.inj hsplit
      exact absurd hlater (not_isUnclosed_of_name hname)
    | cons first other =>
      obtain ⟨rfl, htail⟩ := List.cons.inj hsplit
      have hclosed : '<' ∉ name ++ ['>'] := by
        intro hmem
        rcases List.mem_append.mp hmem with hmem | hmem
        · simpa [isNameChar] using hname _ hmem
        · simp at hmem
      rw [List.append_cons name] at htail
      obtain ⟨more, rfl, hmore⟩ := exists_append_of_not_mem hclosed htail
      obtain ⟨last, rfl⟩ := ih hmore
      exact ⟨last, by simp⟩
  | @stretch stretch after form hne hplain hend hafter ih =>
    have hbracket : '<' ∉ stretch := fun hmem => by simpa [isPlainChar] using hplain _ hmem
    rw [List.append_assoc] at hsplit
    obtain ⟨more, rfl, hmore⟩ := exists_append_of_not_mem hbracket hsplit
    obtain ⟨last, rfl⟩ := ih hmore
    exact ⟨last, by simp⟩

/-! ### Failures -/

lemma utf8Length_append (left right : List Char) :
    utf8Length (left ++ right) = utf8Length left + utf8Length right := by
  induction left with
  | nil => simp [utf8Length]
  | cons c left ih => simp [utf8Length, ih, Nat.add_assoc]

lemma utf8Length_eq (chars : List Char) :
    utf8Length chars = (String.ofList chars).utf8ByteSize := by
  induction chars with
  | nil => rfl
  | cons c rest ih => simp [utf8Length, ih, String.ofList_cons]

lemma exists_of_map_eq_error {ε α β : Type} {f : α → β} {result : Except ε α} {e : ε}
    (h : result.map f = .error e) : result = .error e := by
  cases result with
  | error e => simpa [Except.map] using h
  | ok a => simp [Except.map] at h

/-- Scanning fails at an unclosed `<` behind a text that can be divided. -/
lemma exists_unclosed_of_scanAt (h : scanAt granularity position chars = .error e) :
    ∃ front after form, Scanned granularity front form ∧ chars = front ++ '<' :: after ∧
      IsUnclosed after ∧ e.position = position + utf8Length front := by
  fun_induction scanAt granularity position chars with
  | case1 => cases h
  | case2 position rest hrest =>
    have hnone : '>' ∉ rest := by
      intro hmem
      simpa [isNameChar] using List.dropWhile_eq_nil_iff.mp hrest _ hmem
    exact ⟨[], rest, [], .nil, rfl, .ended hnone, by rw [← Except.error.inj h]; rfl⟩
  | case3 position rest name after hrest =>
    rename_i ih
    obtain ⟨front, last, form, hfront, rfl, hlast, hposition⟩ := ih (exists_of_map_eq_error h)
    have hsplit : rest = name ++ '>' :: (front ++ '<' :: last) := by
      rw [← hrest, List.takeWhile_append_dropWhile]
    have hname : ∀ c ∈ name, isNameChar c = true := fun c hc => List.mem_takeWhile_imp hc
    refine ⟨_, last, _, .name hname hfront, by simp [hsplit], hlast, ?_⟩
    have hopen : '<'.utf8Size = 1 := rfl
    have hclose : '>'.utf8Size = 1 := rfl
    rw [hposition, utf8Length_append, utf8Length, utf8Length, hopen, hclose]
    omega
  | case4 position rest close after hrest hclose =>
    have hother : close = '<' := by
      have hstop := List.head?_dropWhile_not isNameChar rest
      rw [hrest] at hstop
      simpa [isNameChar, hclose] using hstop
    have hnone : '>' ∉ rest.takeWhile isNameChar := by
      intro hmem
      simpa [isNameChar] using List.mem_takeWhile_imp hmem
    have hsplit : rest = rest.takeWhile isNameChar ++ '<' :: after := by
      rw [← hother, ← hrest, List.takeWhile_append_dropWhile]
    refine ⟨[], rest, [], .nil, rfl, hsplit ▸ .reopened after hnone, ?_⟩
    rw [← Except.error.inj h]
    rfl
  | case5 position c rest hc stretch =>
    rename_i ih
    obtain ⟨front, last, form, hfront, hrest, hlast, hposition⟩ := ih (exists_of_map_eq_error h)
    have hplain : ∀ d ∈ stretch, isPlainChar d = true := by
      intro d hd
      rcases List.mem_cons.mp hd with rfl | hd
      · simp [isPlainChar, hc]
      · exact List.mem_takeWhile_imp hd
    have hend : ∀ d ∈ front.head?, isPlainChar d = false := by
      intro d hd
      obtain ⟨tail, rfl⟩ := List.head?_eq_some_iff.mp hd
      have hstop := List.head?_dropWhile_not isPlainChar rest
      rwa [hrest] at hstop
    have hsplit : c :: rest = stretch ++ front ++ '<' :: last := by
      rw [List.append_assoc, ← hrest, List.cons_append, List.takeWhile_append_dropWhile]
    refine ⟨_, last, _, .stretch (List.cons_ne_nil _ _) hplain hend hfront, hsplit, hlast, ?_⟩
    rw [hposition, utf8Length_append, Nat.add_assoc]

lemma exists_split_of_unclosedAt (h : UnclosedAt text position) :
    ∃ before after, text.toList = before ++ '<' :: after ∧ IsUnclosed after ∧
      position = utf8Length before := by
  obtain ⟨before, after, rfl, hafter, rfl⟩ := h
  exact ⟨before.toList, after.toList, by simp, hafter, by simp [utf8Length_eq]⟩

lemma unclosedAt_of_split (h : text.toList = front ++ '<' :: after)
    (hafter : IsUnclosed after) : UnclosedAt text (utf8Length front) := by
  refine ⟨String.ofList front, String.ofList after, ?_, by simpa using hafter, utf8Length_eq front⟩
  rw [← String.toList_inj]
  simp [h]

/-- A text that is scanned has no unclosed `<`. -/
lemma not_unclosedAt_of_scan (h : scan granularity text = .ok form) :
    ¬UnclosedAt text position := by
  intro hunclosed
  obtain ⟨before, after, hsplit, hafter, -⟩ := exists_split_of_unclosedAt hunclosed
  have hwhole : text.toList ++ [] = before ++ '<' :: after := by rw [List.append_nil, hsplit]
  have hle := ((scanned_of_scan h).isPrefix_of_unclosed hwhole hafter).length_le
  rw [hsplit, List.length_append, List.length_cons] at hle
  omega

lemma isFirstUnclosed_of_scan (h : scan granularity text = .error e) :
    IsFirstUnclosed text e.position := by
  obtain ⟨front, after, form, hfront, hsplit, hafter, hposition⟩ := exists_unclosed_of_scanAt h
  rw [Nat.zero_add] at hposition
  rw [hposition]
  refine ⟨unclosedAt_of_split hsplit hafter, ?_⟩
  intro other hother
  obtain ⟨before, later, hsplit', hlater, rfl⟩ := exists_split_of_unclosedAt hother
  obtain ⟨more, rfl⟩ := hfront.isPrefix_of_unclosed (hsplit ▸ hsplit') hlater
  rw [utf8Length_append]
  exact Nat.le_add_right _ _

/-- Scanning fails just at the first unclosed `<`. -/
lemma scan_eq_error_iff :
    scan granularity text = .error e ↔ IsFirstUnclosed text e.position := by
  refine ⟨isFirstUnclosed_of_scan, fun hfirst => ?_⟩
  cases hscan : scan granularity text with
  | ok form => exact absurd hfirst.unclosed (not_unclosedAt_of_scan hscan)
  | error other =>
    have hother := isFirstUnclosed_of_scan hscan
    obtain ⟨position⟩ := e
    obtain ⟨position'⟩ := other
    have heq : position' = position :=
      Nat.le_antisymm (hother.le _ hfirst.unclosed) (hfirst.le _ hother.unclosed)
    rw [heq]

/-! ### Searches -/

lemma Grammar.action_ne_malformedInput {g : Grammar} {input : String} {limit : Nat}
    {tokens : Form} {step : Step} (htokens : scan .char input = .ok tokens)
    (hstep : step ∈ (g.searchReduction input limit).toList) :
    step.action ≠ .malformedInput position := by
  intro haction
  cases reductionKind_of_mem htokens hstep with
  | start h | normalize h | reduce h | retry h | abandonment h | limit h | goal h | noReductions h
  | exhausted h | inconclusive h => cases haction.symm.trans h

/-- Scanning fails just if some `<` of the text is unclosed, and it reports the first of them at
either granularity. A search for a reduction of such an input consists of a single step, which
rejects the input for that reason; no other search has such a step. -/
theorem scan_fails_at_first_unclosed :
    (∀ granularity text e,
      scan granularity text = .error e ↔ IsFirstUnclosed text e.position) ∧
    (∀ granularity text,
      (∃ e, scan granularity text = .error e) ↔ ∃ position, UnclosedAt text position) ∧
    ∀ (g : Grammar) (input : String) (limit : Nat),
      (∀ position, IsFirstUnclosed input position → (g.searchReduction input limit).toList =
        [{ action := .malformedInput position, form := [], success := some false }]) ∧
      ((∀ position, ¬UnclosedAt input position) →
        ∀ step ∈ (g.searchReduction input limit).toList, ∀ position,
          step.action ≠ .malformedInput position) := by
  refine ⟨fun _ _ _ => scan_eq_error_iff, fun granularity text => ?_, fun g input limit => ?_⟩
  · constructor
    · rintro ⟨e, he⟩
      exact ⟨_, (isFirstUnclosed_of_scan he).unclosed⟩
    · rintro ⟨position, hunclosed⟩
      cases hscan : scan granularity text with
      | ok form => exact absurd hunclosed (not_unclosedAt_of_scan hscan)
      | error e => exact ⟨e, rfl⟩
  · constructor
    · intro position hfirst
      have hscan : scan .char input = .error ⟨position⟩ := scan_eq_error_iff.mpr hfirst
      rw [Grammar.searchReduction, hscan, Trace.toList_push, Trace.toList_empty, List.nil_append]
    · intro hclosed step hstep position
      cases hscan : scan .char input with
      | ok tokens => exact Grammar.action_ne_malformedInput hscan hstep
      | error e => exact absurd (isFirstUnclosed_of_scan hscan).unclosed (hclosed _)

/-- The bracket that is opened again is at fault, after a letter of two bytes. -/
theorem nested_scan_fails_at_first_unclosed :
    (IsFirstUnclosed "ü<b<c>" 2 ∧ (Grammar.sums.searchReduction "ü<b<c>" 100).toList =
      [{ action := .malformedInput 2, form := [], success := some false }]) ∧
    ((∀ position, ¬UnclosedAt "1>+<Bit>" position) ∧
      ∀ step ∈ (Grammar.sums.searchReduction "1>+<Bit>" 100).toList, ∀ position,
        step.action ≠ .malformedInput position) := by
  have hfirst : IsFirstUnclosed "ü<b<c>" 2 :=
    (scan_fails_at_first_unclosed.1 .char "ü<b<c>" ⟨2⟩).mp (by decide +kernel)
  have hclosed : ∀ position, ¬UnclosedAt "1>+<Bit>" position := by
    intro position hunclosed
    obtain ⟨e, he⟩ := (scan_fails_at_first_unclosed.2.1 .char "1>+<Bit>").mpr ⟨position, hunclosed⟩
    have hscan : (scan .char "1>+<Bit>").toOption.isSome = true := by decide +kernel
    rw [he] at hscan
    cases hscan
  exact ⟨⟨hfirst, (scan_fails_at_first_unclosed.2.2 Grammar.sums "ü<b<c>" 100).1 2 hfirst⟩,
    hclosed, (scan_fails_at_first_unclosed.2.2 Grammar.sums "1>+<Bit>" 100).2 hclosed⟩

end GrammarTrace
