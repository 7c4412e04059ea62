import GrammarTrace.Production
import GrammarTrace.Proofs.Lists

/-!
# What scanning makes of a text

`Scanned` divides a text into bracketed names and stretches of terminal text. A successful scan
divides its text in this way (`scanned_of_scan`), so it loses nothing of the text
(`text_of_scan`) and makes symbols of a few shapes only (`isToken_of_scan`).
-/

namespace GrammarTrace

variable {granularity : Granularity} {position : Nat} {form : Form}

/-! ### Divisions of a text -/

/-- A division of a text into bracketed names and maximal stretches of terminal text, with the
symbols that stand for the pieces. -/
inductive Scanned (granularity : Granularity) : List Char → Form → Prop where
  | nil : Scanned granularity [] []
  | name {name after : List Char} {form : Form} (hname : ∀ c ∈ name, isNameChar c = true)
      (hafter : Scanned granularity after form) :
      Scanned granularity ('<' :: name ++ '>' :: after)
        (.nonterminal (String.ofList ('<' :: name ++ ['>'])) :: form)
  | stretch {stretch after : List Char} {form : Form} (hne : stretch ≠ [])
      (hplain : ∀ c ∈ stretch, isPlainChar c = true)
      (hend : ∀ c ∈ after.head?, isPlainChar c = false)
      (hafter : Scanned granularity after form) :
      Scanned granularity (stretch ++ after) (granularity.divide stretch ++ form)

lemma exists_of_map_eq_ok {ε α β : Type} {f : α → β} {result : Except ε α} {b : β}
    (h : result.map f = .ok b) : ∃ a, result = .ok a ∧ f a = b := by
  cases result with
  | error e => simp [Except.map] at h
  | ok a => exact ⟨a, rfl, by simpa [Except.map] using h⟩

lemma scanned_of_scanAt {text : List Char}
    (h : scanAt granularity position text = .ok form) : Scanned granularity text form := by
  fun_induction scanAt granularity position text generalizing form with
  | case1 position =>
    cases h
    exact .nil
  | case2 | case4 => cases h
  | case3 position rest name after hrest =>
    rename_i ih
    obtain ⟨symbols, hsymbols, rfl⟩ := exists_of_map_eq_ok h
    have hsplit : rest = name ++ '>' :: after := by
      rw [← hrest, List.takeWhile_append_dropWhile]
    have hname : ∀ c ∈ name, isNameChar c = true := fun c hc => List.mem_takeWhile_imp hc
    have hscanned := Scanned.name hname (ih hsymbols)
    rwa [List.cons_append, ← hsplit] at hscanned
  | case5 position c rest hc stretch =>
    rename_i ih
    obtain ⟨symbols, hsymbols, rfl⟩ := exists_of_map_eq_ok h
    have hplain : ∀ d ∈ stretch, isPlainChar d = true := by
      intro d hd
      rcases List.mem_cons.mp hd with rfl | hd
      · simp [isPlainChar, hc]
      · exact List.mem_takeWhile_imp hd
    have hend : ∀ d ∈ (rest.dropWhile isPlainChar).head?, isPlainChar d = false := by
      intro d hd
      have := List.head?_dropWhile_not isPlainChar rest
      rwa [Option.mem_def.mp hd] at this
    have hscanned := Scanned.stretch (List.cons_ne_nil _ _) hplain hend (ih hsymbols)
    rwa [List.cons_append, List.takeWhile_append_dropWhile] at hscanned

/-- A successful scan divides its text. -/
lemma scanned_of_scan {text : String} (h : scan granularity text = .ok form) :
    Scanned granularity text.toList form :=
  scanned_of_scanAt h

/-- A text that can be divided is scanned into the symbols of its pieces. -/
lemma Scanned.scanAt_eq {text : List Char} (h : Scanned granularity text form) (position : Nat) :
    scanAt granularity position text = .ok form := by
  induction h generalizing position with
  | nil => rw [scanAt]
  | @name name after form hname hafter ih =>
    have hclosed : ∀ c ∈ ('>' :: after).head?, isNameChar c = false := by simp [isNameChar]
    have hdrop := dropWhile_append_of_head hname hclosed
    rw [List.cons_append, scanAt, if_pos rfl]
    dsimp only
    split
    · next hnil => cases hdrop.symm.trans hnil
    · next close rest hclose =>
      obtain ⟨rfl, rfl⟩ := List.cons.inj (hdrop.symm.trans hclose)
      rw [if_pos rfl, takeWhile_append_of_head hname hclosed, ih]
      rfl
  | @stretch stretch after form hne hplain hend hafter ih =>
    obtain ⟨c, rest, rfl⟩ := List.exists_cons_of_ne_nil hne
    obtain ⟨hc, hrest⟩ := List.forall_mem_cons.mp hplain
    have hbracket : c ≠ '<' := by simpa [isPlainChar] using hc
    rw [List.cons_append, scanAt, if_neg hbracket]
    dsimp only
    rw [takeWhile_append_of_head hrest hend, dropWhile_append_of_head hrest hend, ih]
    rfl

lemma isPlainChar_of_not_mem {text : List Char} (h : '<' ∉ text) :
    ∀ c ∈ text, isPlainChar c = true := by
  intro c hc
  have hbracket : c ≠ '<' := fun heq => h (heq ▸ hc)
  simpa [isPlainChar] using hbracket

/-- A text without `<` is a single stretch. -/
lemma scan_of_plain {text : String} (hne : text ≠ "") (hplain : '<' ∉ text.toList) :
    scan granularity text = .ok (granularity.divide text.toList) := by
  have hne' : text.toList ≠ [] := by simpa using hne
  have hscanned : Scanned granularity (text.toList ++ []) (granularity.divide text.toList ++ []) :=
    .stretch hne' (isPlainChar_of_not_mem hplain) (by simp) .nil
  rw [List.append_nil, List.append_nil] at hscanned
  exact hscanned.scanAt_eq 0

/-- Text without `<` is scanned into its characters. -/
lemma scan_char_of_plain {text : String} (hplain : '<' ∉ text.toList) :
    scan .char text = .ok (text.toList.map fun c => .terminal (String.singleton c)) := by
  by_cases hempty : text = ""
  · rw [hempty, scan, String.toList_empty, scanAt, List.map_nil]
  · exact scan_of_plain hempty hplain

/-! ### Nothing is lost -/

lemma Granularity.text_divide (granularity : Granularity) (stretch : List Char) :
    Form.text (granularity.divide stretch) = String.ofList stretch := by
  cases granularity with
  | run => simp [divide]
  | char =>
    rw [divide]
    induction stretch with
    | nil => simp
    | cons c rest ih =>
      rw [List.map_cons, Form.text_cons, ih, Symbol.text_terminal, ← String.toList_inj]
      simp

lemma Scanned.text_eq {text : List Char} (h : Scanned granularity text form) :
    Form.text form = String.ofList text := by
  induction h with
  | nil => simp
  | name hname hafter ih =>
    rw [Form.text_cons, ih, Symbol.text_nonterminal, ← String.ofList_append]
    simp
  | stretch hne hplain hend hafter ih =>
    rw [Form.text_append, ih, Granularity.text_divide, String.ofList_append]

/-- The symbols of a text spell it out. -/
theorem text_of_scan {text : String} (h : scan granularity text = .ok form) :
    Form.text form = text := by
  rw [(scanned_of_scan h).text_eq, String.ofList_toList]

/-! ### The shapes of symbols -/

/-- A symbol as scanning makes it: a nonempty piece of text without `<`, which is a single character
where every character is a symbol, or a name in brackets. -/
def Symbol.IsToken (granularity : Granularity) : Symbol → Prop
  | .terminal text => text ≠ "" ∧ '<' ∉ text.toList ∧
      (granularity = .char → ∃ c, text = String.singleton c)
  | .nonterminal name => ∃ inner : List Char,
      (∀ c ∈ inner, isNameChar c = true) ∧ name = String.ofList ('<' :: inner ++ ['>'])

lemma Granularity.isToken_of_mem_divide {stretch : List Char} {symbol : Symbol}
    (hne : stretch ≠ []) (hplain : ∀ c ∈ stretch, isPlainChar c = true)
    (h : symbol ∈ granularity.divide stretch) : symbol.IsToken granularity := by
  have hbracket : '<' ∉ stretch := fun hmem => by simpa [isPlainChar] using hplain _ hmem
  cases granularity with
  | run =>
    rw [divide, List.mem_singleton] at h
    subst h
    refine ⟨?_, by simpa using hbracket, by simp⟩
    rw [Ne, ← String.toList_inj]
    simpa using hne
  | char =>
    rw [divide, List.mem_map] at h
    obtain ⟨c, hc, rfl⟩ := h
    refine ⟨?_, ?_, fun _ => ⟨c, rfl⟩⟩
    · rw [Ne, ← String.toList_inj]
      simp
    · rw [String.toList_singleton, List.mem_singleton]
      rintro rfl
      exact hbracket hc

lemma Scanned.isToken {text : List Char} {symbol : Symbol} (h : Scanned granularity text form)
    (hmem : symbol ∈ form) : symbol.IsToken granularity := by
  induction h with
  | nil => simp at hmem
  | name hname hafter ih =>
    rcases List.mem_cons.mp hmem with rfl | hmem
    · exact ⟨_, hname, rfl⟩
    · exact ih hmem
  | stretch hne hplain hend hafter ih =>
    rcases List.mem_append.mp hmem with hmem | hmem
    · exact Granularity.isToken_of_mem_divide hne hplain hmem
    · exact ih hmem

/-- Scanning makes only symbols of these shapes. -/
theorem isToken_of_scan {text : String} {symbol : Symbol} (h : scan granularity text = .ok form)
    (hmem : symbol ∈ form) : symbol.IsToken granularity :=
  (scanned_of_scan h).isToken hmem

end GrammarTrace
