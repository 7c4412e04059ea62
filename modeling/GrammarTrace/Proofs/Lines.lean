import Mathlib.Data.List.DropRight
import GrammarTrace.Proofs.Lists
import GrammarTrace.Text.Blank
import GrammarTrace.Text.Lines

/-!
# Cutting and trimming texts

What cutting and trimming leave of a text are stretches of it. Lines that are joined by line feeds
are cut apart again, whether the last of them is ended or not (`Text.cutLines_intercalate`,
`Text.cutLines_intercalate_append`), if cutting neither drops nor changes one of them. A text that
is cut in two after a line end has the lines of its two parts (`Text.cutLines_append`). Which lines
a text has is also said without cutting it (`Text.HasLines`, `Text.hasLines_cutLines`).
-/

namespace GrammarTrace

/-! ### Trimmed texts -/

namespace Text

section Trim

variable {text : List Char} {c : Char}

lemma trim_eq (text : List Char) : trim text = (text.dropWhile isBlank).rdropWhile isBlank := rfl

lemma isInfix_trim : trim text <:+: text :=
  (List.rdropWhile_prefix ..).isInfix.trans (List.dropWhile_suffix ..).isInfix

lemma trim_cons (h : isBlank c = true) : trim (c :: text) = trim text := by
  rw [trim_eq, List.dropWhile_cons_of_pos h, trim_eq]

lemma trim_concat (h : isBlank c = true) : trim (text ++ [c]) = trim text := by
  rw [trim_eq, trim_eq, List.dropWhile_append]
  split_ifs with hblank
  · rw [List.isEmpty_iff.mp hblank, List.dropWhile_cons_of_pos h, List.dropWhile_nil]
  · rw [List.rdropWhile_concat_pos _ _ _ h]

lemma exists_rdropWhile_cons (h : isBlank c = false) (text : List Char) :
    ∃ rest, (c :: text).rdropWhile isBlank = c :: rest := by
  induction text using List.reverseRecOn with
  | nil => exact ⟨[], by simp [List.rdropWhile_singleton, h]⟩
  | append_singleton text last ih =>
    rw [← List.cons_append, List.rdropWhile_concat]
    split_ifs
    · exact ih
    · exact ⟨_, rfl⟩

/-- A first character that is not blank stays the first one. -/
lemma exists_trim_cons (h : isBlank c = false) (text : List Char) :
    ∃ rest, trim (c :: text) = c :: rest := by
  rw [trim_eq, List.dropWhile_cons_of_neg (by simp [h])]
  exact exists_rdropWhile_cons h text

lemma trim_trim (text : List Char) : trim (trim text) = trim text := by
  have hfirst := List.head?_dropWhile_not isBlank text
  rw [trim_eq (trim text), trim_eq text]
  cases hdropped : text.dropWhile isBlank with
  | nil => simp
  | cons c rest =>
    rw [hdropped] at hfirst
    obtain ⟨trimmed, htrimmed⟩ := exists_rdropWhile_cons hfirst rest
    have hkept : ((c :: rest).rdropWhile isBlank).dropWhile isBlank =
        (c :: rest).rdropWhile isBlank := by
      rw [htrimmed]
      exact List.dropWhile_cons_of_neg (Bool.eq_false_iff.mp hfirst)
    rw [hkept, List.rdropWhile_idempotent]

/-- What blanks at the ends do not change is the same for the trimmed text. -/
lemma eq_of_trim {β : Type} {f : List Char → β}
    (hcons : ∀ c text, isBlank c = true → f (c :: text) = f text)
    (hconcat : ∀ c text, isBlank c = true → f (text ++ [c]) = f text) (text : List Char) :
    f (trim text) = f text := by
  have hfront : ∀ text, f (text.dropWhile isBlank) = f text := by
    intro text
    induction text with
    | nil => rfl
    | cons c text ih =>
      by_cases hc : isBlank c = true
      · rw [List.dropWhile_cons_of_pos hc, ih, hcons c text hc]
      · rw [List.dropWhile_cons_of_neg hc]
  have hback : ∀ text, f (text.rdropWhile isBlank) = f text := by
    intro text
    induction text using List.reverseRecOn with
    | nil => rfl
    | append_singleton text c ih =>
      by_cases hc : isBlank c = true
      · rw [List.rdropWhile_concat_pos _ _ _ hc, ih, hconcat c text hc]
      · rw [List.rdropWhile_concat_neg _ _ _ hc]
  rw [trim_eq, hback, hfront]

/-- The last character of a trimmed text is not blank. -/
lemma isBlank_of_getLast? (h : trim text = text) (hc : text.getLast? = some c) :
    isBlank c = false := by
  obtain ⟨init, rfl⟩ := List.getLast?_eq_some_iff.mp hc
  by_contra hblank
  rw [trim_concat (by simpa using hblank)] at h
  have hle : (trim init).length ≤ init.length := isInfix_trim.length_le
  rw [h, List.length_append, List.length_singleton] at hle
  omega

end Trim

/-! ### Lines -/

section Lines

variable {α : Type} [BEq α] {line rest text : List α} {lines : List (List α)} {feed carriage : α}

lemma dropLastIf_isPrefix : dropLastIf carriage line <+: line := by
  rw [dropLastIf]
  split_ifs
  · exact List.dropLast_prefix line
  · exact List.prefix_rfl

/-- The lines of a text are those that are ended, and what comes after them. -/
lemma cutLines_of_splitOn (h : text.splitOn feed = lines ++ [rest]) :
    cutLines feed carriage text =
      lines.map (dropLastIf carriage) ++ if rest = [] then [] else [rest] := by
  rw [cutLines, h]
  cases rest <;> simp

variable [LawfulBEq α]

lemma dropLastIf_concat (carriage : α) (line : List α) :
    dropLastIf carriage (line ++ [carriage]) = line := by
  simp [dropLastIf]

lemma dropLastIf_eq_self (h : line.getLast? ≠ some carriage) : dropLastIf carriage line = line := by
  rw [dropLastIf, if_neg (by simpa using h)]

lemma isInfix_of_mem_cutLines (h : line ∈ cutLines feed carriage text) :
    line <:+: text ∧ feed ∉ line := by
  have hsplit : text.splitOn feed = _ :=
    (List.dropLast_append_getLast (List.splitOn_ne_nil feed text)).symm
  rw [cutLines_of_splitOn hsplit, List.mem_append] at h
  obtain ⟨piece, hpiece, hstarts⟩ : ∃ piece ∈ text.splitOn feed, line <+: piece := by
    rcases h with h | h
    · obtain ⟨piece, hpiece, rfl⟩ := List.mem_map.mp h
      exact ⟨piece, List.dropLast_subset _ hpiece, dropLastIf_isPrefix⟩
    · split_ifs at h
      · cases h
      · exact ⟨line, List.mem_singleton.mp h ▸ List.getLast_mem _, List.prefix_rfl⟩
  exact ⟨hstarts.isInfix.trans (isInfix_of_mem_splitOn hpiece),
    fun hmem => not_mem_of_mem_splitOn hpiece (hstarts.subset hmem)⟩

/-- Whether a line is neither dropped nor changed by cutting. -/
structure Survives (feed carriage : α) (line : List α) : Prop where
  ne_nil : line ≠ []
  feed : feed ∉ line
  carriage : line.getLast? ≠ some carriage

lemma map_dropLastIf (h : ∀ line ∈ lines, Survives feed carriage line) :
    lines.map (dropLastIf carriage) = lines := by
  rw [List.map_congr_left fun line hline => dropLastIf_eq_self (h line hline).carriage,
    List.map_id']

lemma cutLines_intercalate (h : ∀ line ∈ lines, Survives feed carriage line) (hne : lines ≠ []) :
    cutLines feed carriage ([feed].intercalate lines) = lines := by
  have hsplit : ([feed].intercalate lines).splitOn feed = lines :=
    List.splitOn_intercalate feed (fun line hline => (h line hline).feed) hne
  induction lines using List.reverseRecOn with
  | nil => exact absurd rfl hne
  | append_singleton lines last =>
    obtain ⟨hlines, hlast⟩ := List.forall_mem_append.mp h
    rw [cutLines_of_splitOn hsplit, map_dropLastIf hlines,
      if_neg (List.forall_mem_singleton.mp hlast).ne_nil]

lemma cutLines_intercalate_append (h : ∀ line ∈ lines, Survives feed carriage line)
    (hne : lines ≠ []) : cutLines feed carriage ([feed].intercalate lines ++ [feed]) = lines := by
  have hsplit : ([feed].intercalate lines ++ [feed]).splitOn feed = lines ++ [[]] := by
    rw [List.splitOn_append_cons_self, List.splitOn_nil,
      List.splitOn_intercalate feed (fun line hline => (h line hline).feed) hne]
  rw [cutLines_of_splitOn hsplit, map_dropLastIf h, if_pos rfl, List.append_nil]

/-- What stands in front of a line is cut on its own. -/
lemma cutLines_append {before : List α} (h : before = [] ∨ ∃ init, before = init ++ [feed])
    (after : List α) : cutLines feed carriage (before ++ after) =
      cutLines feed carriage before ++ cutLines feed carriage after := by
  obtain ⟨lines, rest, hafter⟩ := exists_splitOn_eq_concat feed after
  rcases h with rfl | ⟨init, rfl⟩
  · rfl
  · have hbefore : (init ++ [feed]).splitOn feed = init.splitOn feed ++ [[]] := by
      rw [List.splitOn_append_cons_self, List.splitOn_nil]
    have hwhole : (init ++ [feed] ++ after).splitOn feed =
        (init.splitOn feed ++ lines) ++ [rest] := by
      rw [List.append_assoc, List.singleton_append, List.splitOn_append_cons_self, hafter,
        List.append_assoc]
    rw [cutLines_of_splitOn hwhole, cutLines_of_splitOn hbefore, cutLines_of_splitOn hafter,
      if_pos rfl, List.append_nil, List.map_append, List.append_assoc]

lemma cutLines_ended (h : feed ∉ line) :
    cutLines feed carriage (line ++ [feed]) = [dropLastIf carriage line] := by
  have hsplit : (line ++ [feed]).splitOn feed = [line] ++ [[]] := by
    rw [List.splitOn_append_cons_self, List.splitOn_nil, List.splitOn_eq_singleton h]
  rw [cutLines_of_splitOn hsplit, if_pos rfl, List.append_nil, List.map_singleton]

/-- A line that is not ended is left as it is, a carriage return at its end included. -/
lemma cutLines_unended (h : feed ∉ line) (hne : line ≠ []) :
    cutLines feed carriage line = [line] := by
  have hsplit : line.splitOn feed = [] ++ [line] := List.splitOn_eq_singleton h
  rw [cutLines_of_splitOn hsplit, if_neg hne]
  rfl

/-- Which lines a text has: each one goes on to a line feed, or to the end of the text if there is
something left. A carriage return right before a line feed belongs to neither line. -/
inductive HasLines (feed carriage : α) : List α → List (List α) → Prop where
  | nil : HasLines feed carriage [] []
  | unended {line : List α} (hfeed : feed ∉ line) (hne : line ≠ []) :
      HasLines feed carriage line [line]
  | fed {line rest : List α} {lines : List (List α)} (hfeed : feed ∉ line)
      (hcarriage : line.getLast? ≠ some carriage) (h : HasLines feed carriage rest lines) :
      HasLines feed carriage (line ++ feed :: rest) (line :: lines)
  | returned {line rest : List α} {lines : List (List α)} (hfeed : feed ∉ line)
      (h : HasLines feed carriage rest lines) :
      HasLines feed carriage (line ++ carriage :: feed :: rest) (line :: lines)

lemma cutLines_append_cons (h : feed ∉ line) (rest : List α) :
    cutLines feed carriage (line ++ feed :: rest) =
      dropLastIf carriage line :: cutLines feed carriage rest := by
  rw [← List.singleton_append, ← List.append_assoc, cutLines_append (.inr ⟨line, rfl⟩),
    cutLines_ended h, List.singleton_append]

lemma HasLines.cutLines_eq (h : HasLines feed carriage text lines) (hne : feed ≠ carriage) :
    cutLines feed carriage text = lines := by
  induction h with
  | nil => rfl
  | unended hfeed hnonempty => exact cutLines_unended hfeed hnonempty
  | fed hfeed hcarriage _ ih =>
    rw [cutLines_append_cons hfeed, ih, dropLastIf_eq_self hcarriage]
  | @returned line rest lines hfeed _ ih =>
    have hfeed' : feed ∉ line ++ [carriage] := by simp [hfeed, hne]
    have hcut : cutLines feed carriage (line ++ [carriage] ++ feed :: rest) = _ :=
      cutLines_append_cons hfeed' rest
    rwa [dropLastIf_concat, ih, List.append_assoc, List.singleton_append] at hcut

/-- Every text has lines. -/
lemma hasLines_cutLines (feed carriage : α) (text : List α) :
    HasLines feed carriage text (cutLines feed carriage text) := by
  induction hlength : text.length using Nat.strong_induction_on generalizing text with
  | _ length ih =>
    by_cases hmem : feed ∈ text
    · obtain ⟨line, rest, rfl, hfeed⟩ := List.eq_append_cons_of_mem hmem
      have hrest := ih rest.length (by simp at hlength; omega) rest rfl
      rw [cutLines_append_cons hfeed]
      by_cases hlast : line.getLast? = some carriage
      · obtain ⟨init, rfl⟩ := List.getLast?_eq_some_iff.mp hlast
        rw [dropLastIf_concat, List.append_assoc, List.singleton_append]
        exact .returned (fun hinit => hfeed (List.mem_append_left _ hinit)) hrest
      · rw [dropLastIf_eq_self hlast]
        exact .fed hfeed hlast hrest
    · by_cases hnil : text = []
      · subst hnil
        exact .nil
      · rw [cutLines_unended hmem hnil]
        exact .unended hmem hnil

/-- Lines that are all ended in the same way are cut apart again, whatever else they hold. -/
lemma cutLines_flatMap_ended (hne : feed ≠ carriage) (h : ∀ line ∈ lines, feed ∉ line) :
    cutLines feed carriage (lines.flatMap fun line => line ++ [carriage] ++ [feed]) = lines := by
  induction lines with
  | nil => rfl
  | cons line lines ih =>
    obtain ⟨hline, hlines⟩ := List.forall_mem_cons.mp h
    have hfeed : feed ∉ line ++ [carriage] := by simp [hline, hne]
    rw [List.flatMap_cons, cutLines_append (.inr ⟨_, rfl⟩), cutLines_ended hfeed,
      dropLastIf_concat, ih hlines]
    rfl

end Lines

/-! ### Lines of other elements -/

section FlatMap

variable {α β : Type} [BEq α] [LawfulBEq α] [BEq β] [LawfulBEq β] {f : α → List β}
  {feed carriage : α} {feed' carriage' : β}

lemma dropLastIf_flatMap (hself : f carriage = [carriage'])
    (hother : ∀ a, a ≠ carriage → carriage' ∉ f a) (hne : ∀ a, f a ≠ []) (line : List α) :
    dropLastIf carriage' (line.flatMap f) = (dropLastIf carriage line).flatMap f := by
  induction line using List.reverseRecOn with
  | nil => rfl
  | append_singleton init a =>
    rw [List.flatMap_append, List.flatMap_singleton, dropLastIf, dropLastIf,
      List.getLast?_append_of_ne_nil _ (hne a), List.getLast?_concat]
    by_cases ha : a = carriage
    · subst ha
      simp [hself]
    · have hlast : (f a).getLast? ≠ some carriage' :=
        fun hlast => hother a ha (List.mem_of_getLast? hlast)
      rw [if_neg (by simpa using hlast), if_neg (by simpa using ha), List.flatMap_append,
        List.flatMap_singleton]

/-- Elements can be replaced by lists before or after cutting, if only line feeds give line feeds
and only carriage returns give carriage returns. -/
lemma cutLines_flatMap (hfeed : f feed = [feed']) (hfeed' : ∀ a, a ≠ feed → feed' ∉ f a)
    (hcarriage : f carriage = [carriage']) (hcarriage' : ∀ a, a ≠ carriage → carriage' ∉ f a)
    (hne : ∀ a, f a ≠ []) (text : List α) :
    cutLines feed' carriage' (text.flatMap f) =
      (cutLines feed carriage text).map (List.flatMap f) := by
  obtain ⟨lines, rest, htext⟩ := exists_splitOn_eq_concat feed text
  have hsplit := splitOn_flatMap hfeed hfeed' text
  rw [htext, List.map_append, List.map_singleton] at hsplit
  have hrest : rest.flatMap f = [] ↔ rest = [] := by
    rw [List.flatMap_eq_nil_iff]
    exact ⟨fun h => List.eq_nil_iff_forall_not_mem.mpr fun a ha => hne a (h a ha), by simp_all⟩
  have hlines := fun line (_ : line ∈ lines) => dropLastIf_flatMap hcarriage hcarriage' hne line
  rw [cutLines_of_splitOn hsplit, cutLines_of_splitOn htext, List.map_append, List.map_map,
    List.map_map]
  refine congrArg₂ (· ++ ·) (List.map_congr_left hlines) ?_
  by_cases hnil : rest = []
  · rw [if_pos hnil, if_pos (hrest.mpr hnil), List.map_nil]
  · rw [if_neg hnil, if_neg (mt hrest.mp hnil), List.map_singleton]

end FlatMap

end Text

end GrammarTrace
