import Mathlib.Data.List.Chain
import GrammarTrace.Proofs.Scanning

/-!
# Canonical forms

A form is canonical at a granularity if its symbols are tokens and, where a stretch of terminal text
is one symbol, no two terminals stand side by side. Scanning pairs the texts that it accepts with
the canonical forms, each with its own text (`scan_eq_ok_iff`).
-/

namespace GrammarTrace

/-- Whether the symbols of a form are tokens and stretches of terminal text are not cut in two. -/
structure Form.IsCanonical (granularity : Granularity) (form : Form) : Prop where
  isToken : ∀ symbol ∈ form, symbol.IsToken granularity
  apart : granularity = .run →
    form.IsChain fun left right => left.isNonterminal = true ∨ right.isNonterminal = true

variable {granularity : Granularity} {form : Form} {symbol : Symbol} {text : List Char} {c : Char}

/-! ### What is scanned is canonical -/

lemma Scanned.isNonterminal_of_head (h : Scanned granularity text form)
    (hstart : ∀ c ∈ text.head?, isPlainChar c = false) :
    ∀ symbol ∈ form.head?, symbol.isNonterminal = true := by
  cases h with
  | nil => simp
  | name => simp [Symbol.isNonterminal]
  | @stretch stretch _ _ hne hplain =>
    obtain ⟨c, rest, rfl⟩ := List.exists_cons_of_ne_nil hne
    have hc := hplain c List.mem_cons_self
    rw [hstart c (by simp)] at hc
    cases hc

lemma Scanned.isCanonical (h : Scanned granularity text form) : form.IsCanonical granularity := by
  refine ⟨fun symbol hmem => h.isToken hmem, ?_⟩
  rintro rfl
  induction h with
  | nil => exact .nil
  | name hname hafter ih => exact ih.cons fun _ _ => .inl rfl
  | stretch hne hplain hend hafter ih =>
    exact ih.cons fun symbol hsymbol => .inr (hafter.isNonterminal_of_head hend symbol hsymbol)

/-! ### What is canonical is scanned -/

/-- A character in front of a text that is divided into characters is one more symbol. -/
lemma Scanned.cons_char (h : Scanned .char text form) (hc : isPlainChar c = true) :
    Scanned .char (c :: text) (.terminal (String.singleton c) :: form) := by
  have hsingle : ∀ d ∈ [c], isPlainChar d = true := by simpa using hc
  cases h with
  | nil => exact .stretch (List.cons_ne_nil c []) hsingle (by simp) .nil
  | name hname hafter =>
    exact .stretch (List.cons_ne_nil c []) hsingle (by simp [isPlainChar]) (.name hname hafter)
  | stretch hne hplain hend hafter =>
    exact .stretch (List.cons_ne_nil c _) (List.forall_mem_cons.mpr ⟨hc, hplain⟩) hend hafter

/-- The text after a terminal stretch does not go on with it. -/
lemma Form.IsCanonical.not_isPlainChar_of_head {stretch : String}
    (h : Form.IsCanonical .run (.terminal stretch :: form)) :
    ∀ c ∈ form.text.toList.head?, isPlainChar c = false := by
  cases form with
  | nil => simp
  | cons symbol rest =>
    obtain ⟨hnext, -⟩ := List.isChain_cons_cons.mp (h.apart rfl)
    cases symbol with
    | terminal text => simp [Symbol.isNonterminal] at hnext
    | nonterminal name =>
      obtain ⟨inner, -, rfl⟩ := h.isToken (.nonterminal name) (by simp)
      simp [isPlainChar]

lemma Form.IsCanonical.tail (h : Form.IsCanonical granularity (symbol :: form)) :
    form.IsCanonical granularity where
  isToken other hmem := h.isToken other (List.mem_cons_of_mem _ hmem)
  apart hrun := (h.apart hrun).tail

lemma Form.IsCanonical.scanned (h : form.IsCanonical granularity) :
    Scanned granularity form.text.toList form := by
  induction form with
  | nil => exact .nil
  | cons symbol rest ih =>
    have hrest := ih h.tail
    have htoken := h.isToken symbol List.mem_cons_self
    cases symbol with
    | nonterminal name =>
      obtain ⟨inner, hinner, rfl⟩ := htoken
      simpa using Scanned.name hinner hrest
    | terminal text =>
      obtain ⟨hne, hplain, hsingle⟩ := htoken
      have hall := isPlainChar_of_not_mem hplain
      cases granularity with
      | char =>
        obtain ⟨c, rfl⟩ := hsingle rfl
        simpa using hrest.cons_char (hall c (by simp))
      | run =>
        have hne' : text.toList ≠ [] := by simpa using hne
        simpa [Granularity.divide] using
          Scanned.stretch hne' hall h.not_isPlainChar_of_head hrest

/-- The text of a canonical form is scanned into this form. -/
lemma Form.IsCanonical.scan_text (h : form.IsCanonical granularity) :
    scan granularity form.text = .ok form :=
  h.scanned.scanAt_eq 0

/-- Scanning gives a form just if the form is canonical and spells the text. -/
theorem scan_eq_ok_iff (granularity : Granularity) (text : String) (form : Form) :
    scan granularity text = .ok form ↔ Form.text form = text ∧ form.IsCanonical granularity := by
  constructor
  · intro h
    exact ⟨text_of_scan h, (scanned_of_scan h).isCanonical⟩
  · rintro ⟨rfl, hform⟩
    exact hform.scan_text

-- terminals side by side are not told apart
example : scan .run (Form.text [.terminal "a", .terminal "b"]) = .ok [.terminal "ab"] := by
  decide +kernel

end GrammarTrace
