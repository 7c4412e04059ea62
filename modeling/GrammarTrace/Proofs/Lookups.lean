import GrammarTrace.Proofs.DerivationSearch
import GrammarTrace.Proofs.ReductionSearch
import GrammarTrace.Proofs.Search.Lookups
import GrammarTrace.Proofs.UnclosedBrackets

/-!
# What the searches look up

A derivation reads its input from a byte offset and takes the front off its form, and a reduction
compares windows of a form with the symbols of a production and replaces a range of the form. A
checked search does so at places that may not be there. It never fails, since all of its positions
and choices are in range, and records what the search records (`Grammar.searches_inRange`).
-/

namespace GrammarTrace

variable {α : Type}

/-! ### Slices, splices and windows -/

/-- What follows a number of bytes of a text in UTF-8, if they end with a character. -/
def slice? : List Char → Nat → Option (List Char)
  | text, 0 => some text
  | [], _ + 1 => none
  | c :: rest, n + 1 => if c.utf8Size ≤ n + 1 then slice? rest (n + 1 - c.utf8Size) else none

/-- A list with a range of it replaced, if the range is inside the list. -/
def splice? (list : List α) (start stop : Nat) (replacement : List α) : Option (List α) :=
  if start ≤ stop ∧ stop ≤ list.length then
    some (list.take start ++ replacement ++ list.drop stop)
  else none

/-- The stretches of a list that have a length, from left to right. -/
def windows (size : Nat) : List α → List (List α)
  | [] => []
  | a :: rest =>
    if size ≤ (a :: rest).length then (a :: rest).take size :: windows size rest else []

/-- The windows of a list. There are none of length zero. -/
def windows? (size : Nat) (list : List α) : Option (List (List α)) :=
  if size = 0 then none else some (windows size list)

/-- Whether a number of bytes is that of a prefix of a text. -/
def IsBoundary (text : String) (n : Nat) : Prop :=
  ∃ before after : String, text = before ++ after ∧ n = before.utf8ByteSize

variable {text later front : List Char} {n : Nat} {form pattern : Form} {g : Grammar}
  {input : String}

lemma slice?_eq_some_iff :
    slice? text n = some later ↔ ∃ before, text = before ++ later ∧ n = utf8Length before := by
  fun_induction slice? text n with
  | case1 text =>
    rw [Option.some.injEq]
    constructor
    · rintro rfl
      exact ⟨[], rfl, rfl⟩
    · rintro ⟨before, rfl, hlength⟩
      cases before with
      | nil => rfl
      | cons c before =>
        have hpos := c.utf8Size_pos
        rw [utf8Length] at hlength
        omega
  | case2 n =>
    refine ⟨by rintro ⟨⟩, ?_⟩
    rintro ⟨before, hnil, hlength⟩
    obtain ⟨rfl, rfl⟩ := List.append_eq_nil_iff.mp hnil.symm
    cases hlength
  | case3 c rest n hsize ih =>
    rw [ih]
    constructor
    · rintro ⟨before, rfl, hlength⟩
      refine ⟨c :: before, rfl, ?_⟩
      rw [utf8Length, ← hlength, Nat.add_sub_cancel' hsize]
    · rintro ⟨before, hsplit, hlength⟩
      cases before with
      | nil => cases hlength
      | cons d before =>
        obtain ⟨rfl, rfl⟩ := List.cons.inj hsplit
        refine ⟨before, rfl, ?_⟩
        rw [utf8Length] at hlength
        exact Nat.sub_eq_of_eq_add' hlength
  | case4 c rest n hsize =>
    refine ⟨by rintro ⟨⟩, ?_⟩
    rintro ⟨before, hsplit, hlength⟩
    cases before with
    | nil => cases hlength
    | cons d before =>
      obtain ⟨rfl, rfl⟩ := List.cons.inj hsplit
      rw [utf8Length] at hlength
      omega

lemma slice?_add (h : slice? text n = some (front ++ later)) :
    slice? text (n + utf8Length front) = some later := by
  obtain ⟨before, rfl, rfl⟩ := slice?_eq_some_iff.mp h
  exact slice?_eq_some_iff.mpr ⟨before ++ front, by simp, (utf8Length_append ..).symm⟩

/-- A text can be sliced just at its boundaries. -/
lemma isBoundary_iff : IsBoundary input n ↔ ∃ later, slice? input.toList n = some later := by
  simp only [slice?_eq_some_iff]
  constructor
  · rintro ⟨before, after, rfl, rfl⟩
    exact ⟨after.toList, before.toList, by simp, by simp [utf8Length_eq]⟩
  · rintro ⟨later, before, hsplit, rfl⟩
    refine ⟨String.ofList before, String.ofList later, ?_, utf8Length_eq before⟩
    rw [← String.ofList_append, ← hsplit, String.ofList_toList]

/-! ### Derivations -/

/-- A leftmost derivation in progress that reads its input from a byte offset. -/
structure Cursor where
  form : Form
  position : Nat

namespace Cursor

/-- The input that is still to be read. -/
def unread? (input : String) (c : Cursor) : Option (List Char) := slice? input.toList c.position

/-- The derivation that a cursor stands for. -/
def derivation (input : String) (c : Cursor) : Derivation := ⟨c.form, (c.unread? input).getD []⟩

/-- What can be done with the symbol in front. -/
def prospect? (g : Grammar) (input : String) (c : Cursor) :
    Option (Prospect Cursor Production) :=
  match c.form with
  | [] => do
    let unread ← c.unread? input
    match unread with
    | [] => return .goal []
    | first :: unread => return .deadEnd (.leftoverInput (String.ofList (first :: unread)))
  | .nonterminal name :: _ =>
    match g.alternatives? name with
    | none => some (.breakdown (.undefinedNonterminal name))
    | some [] => some (.deadEnd .alternativesExhausted)
    | some (first :: others) => some (.choice first others)
  | .terminal text :: _ => do
    let unread ← c.unread? input
    if text.toList.isPrefixOf unread then
      let form ← splice? c.form 0 1 []
      return .forced (.consume text) ⟨form, c.position + text.utf8ByteSize⟩
    else return .deadEnd (Derivation.refusal text unread)

/-- Replace the symbol in front by the runs of a production. -/
def take? (c : Cursor) (p : Production) : Option Cursor := do
  let form ← splice? c.form 0 1 p.runs
  return { c with form }

/-- The step that records an action; it shows the unread input. -/
def step? (input : String) (c : Cursor) (action : Action) : Option Step := do
  let unread ← c.unread? input
  return { action, form := c.form, remaining := some (String.ofList unread) }

end Cursor

/-- The leftmost derivations of a grammar that read an input from byte offsets. -/
def Grammar.checkedDerivations (g : Grammar) (input : String) :
    CheckedSpace Cursor Production where
  prospect := Cursor.prospect? g input
  take := Cursor.take?
  candidate c p := { nonterminal := Form.text (c.form.take 1), production := p.text }
  chosen taken := .expand taken.nonterminal taken.production
  abandoned c := .abandonExpansion (Form.text (c.form.take 1))
  step := Cursor.step? input
  giveUp c reason := do
    let step ← c.step? input reason
    return { step with success := some false }

variable {c : Cursor} {unread : List Char} {first p : Production} {others : List Production}

lemma splice?_cons {a : α} {rest replacement : List α} :
    splice? (a :: rest) 0 1 replacement = some (replacement ++ rest) := by
  simp [splice?]

/-- What a cursor finds is what the derivation finds that it stands for. -/
lemma Cursor.exists_prospect (h : c.unread? input = some unread) :
    ∃ found, c.prospect? g input = some found ∧
      g.derivations.prospect (c.derivation input) = found.map (derivation input) := by
  obtain ⟨form, position⟩ := c
  have hderivation : derivation input ⟨form, position⟩ = ⟨form, unread⟩ := by
    rw [derivation, h, Option.getD_some]
  rw [hderivation]
  have hfinds : Derivation.Finds g ⟨form, unread⟩ _ := Derivation.finds_prospect
  generalize g.derivations.prospect ⟨form, unread⟩ = found at hfinds
  cases hfinds with
  | goal => exact ⟨.goal [], by simp [prospect?, h], rfl⟩
  | leftover first unread => exact ⟨.deadEnd _, by simp [prospect?, h], rfl⟩
  | undefined rest _ hname => exact ⟨.breakdown _, by simp [prospect?, hname], rfl⟩
  | barren rest _ hname => exact ⟨.deadEnd _, by simp [prospect?, hname], rfl⟩
  | choice rest _ hname => exact ⟨.choice _ _, by simp [prospect?, hname], rfl⟩
  | consume text rest later =>
    have hnext : slice? input.toList (position + text.utf8ByteSize) = some later := by
      have hadd := slice?_add h
      rwa [utf8Length_eq, String.ofList_toList] at hadd
    refine ⟨.forced (.consume text) ⟨rest, position + text.utf8ByteSize⟩, ?_, ?_⟩
    · simp [prospect?, h, splice?_cons]
    · simp [Prospect.map, derivation, unread?, hnext]
  | refusal rest hnot =>
    exact ⟨.deadEnd _, by simp [prospect?, h, List.isPrefixOf_iff_prefix, hnot], rfl⟩

/-- Only a terminal run in front is read without a choice. -/
lemma Cursor.of_forced {action : Action} {next : Cursor}
    (h : c.prospect? g input = some (.forced action next)) :
    ∃ text rest later, c.form = .terminal text :: rest ∧
      c.unread? input = some (text.toList ++ later) ∧
      next = ⟨rest, c.position + text.utf8ByteSize⟩ := by
  obtain ⟨form, position⟩ := c
  cases form with
  | nil =>
    obtain ⟨unread, -, hfound⟩ := Option.bind_eq_some_iff.mp h
    cases unread <;> cases hfound
  | cons symbol rest =>
    cases symbol with
    | nonterminal name =>
      simp only [prospect?] at h
      split at h <;> cases h
    | terminal text =>
      obtain ⟨unread, hunread, hfound⟩ := Option.bind_eq_some_iff.mp h
      split_ifs at hfound with hstarts
      · obtain ⟨later, rfl⟩ := List.isPrefixOf_iff_prefix.mp hstarts
        rw [splice?_cons] at hfound
        obtain ⟨-, rfl⟩ := Prospect.forced.inj (Option.some.inj hfound)
        exact ⟨text, rest, later, rfl, hunread, rfl⟩
      · cases hfound

/-- Only a nonterminal in front has alternatives, and they are those of its rule. -/
lemma Cursor.of_choice (h : c.prospect? g input = some (.choice first others)) :
    ∃ name rest, c.form = .nonterminal name :: rest ∧
      g.alternatives? name = some (first :: others) := by
  obtain ⟨form, position⟩ := c
  cases form with
  | nil =>
    obtain ⟨unread, -, hfound⟩ := Option.bind_eq_some_iff.mp h
    cases unread <;> cases hfound
  | cons symbol rest =>
    cases symbol with
    | nonterminal name =>
      simp only [prospect?] at h
      split at h
      · cases h
      · cases h
      · next halternatives =>
        obtain ⟨rfl, rfl⟩ := Prospect.choice.inj (Option.some.inj h)
        exact ⟨name, rest, rfl, halternatives⟩
    | terminal text =>
      obtain ⟨unread, hunread, hfound⟩ := Option.bind_eq_some_iff.mp h
      split_ifs at hfound
      · rw [splice?_cons] at hfound
        cases hfound
      · cases hfound

lemma Cursor.step?_eq (h : c.unread? input = some unread) (action : Action) :
    c.step? input action = some ((c.derivation input).step action) := by
  simp [step?, h, derivation, Derivation.step]

/-- At a boundary of the input a checked derivation looks up what the derivation works with. -/
lemma Grammar.agrees_derivations (g : Grammar) (input : String) :
    (g.checkedDerivations input).Agrees g.derivations (Cursor.derivation input)
      (fun c => IsBoundary input c.position) Cursor.position where
  prospect h := by
    obtain ⟨unread, hunread⟩ := isBoundary_iff.mp h
    exact Cursor.exists_prospect hunread
  forced := by
    intro c next action h hforced
    obtain ⟨text, rest, later, -, hunread, rfl⟩ := Cursor.of_forced hforced
    have hadd := slice?_add hunread
    rw [utf8Length_eq, String.ofList_toList] at hadd
    exact ⟨isBoundary_iff.mpr ⟨later, hadd⟩, Nat.le_add_right ..⟩
  take := by
    intro c first p others h hchoice hp
    obtain ⟨name, rest, hform, -⟩ := Cursor.of_choice hchoice
    refine ⟨⟨p.runs ++ rest, c.position⟩, ?_, ?_, h, Nat.le_refl _⟩
    · change c.take? p = _
      rw [Cursor.take?, hform, splice?_cons]
      rfl
    · change (c.derivation input).expand p = _
      rw [Derivation.expand, Cursor.derivation, hform]
      rfl
  candidate _ _ := rfl
  chosen _ := rfl
  abandoned _ := rfl
  step action h := by
    obtain ⟨unread, hunread⟩ := isBoundary_iff.mp h
    exact Cursor.step?_eq hunread action
  giveUp reason h := by
    obtain ⟨unread, hunread⟩ := isBoundary_iff.mp h
    change (Cursor.step? input _ reason).bind _ = _
    rw [Cursor.step?_eq hunread]
    rfl

/-! ### Reductions -/

/-- The reductions by a production whose symbols are a window of a form. -/
def Pattern.reductions? (form : Form) (pattern : Pattern) : Option (List Reduction) := do
  let windows ← windows? pattern.symbols.length form
  return windows.zipIdx.filterMap fun window =>
    if window.1 = pattern.symbols then
      some
        { nonterminal := pattern.nonterminal
          production := pattern.production
          span := ⟨window.2, window.2 + pattern.symbols.length⟩ }
    else none

namespace ReductionRules

/-- The reductions of a form, in order of preference. -/
def reductions? (rules : ReductionRules) (form : Form) : Option (List Reduction) :=
  if form.isEmpty then some (rules.empties.map Pattern.emptyReduction)
  else do
    let found ← rules.patterns.mapM (Pattern.reductions? form)
    return found.flatten

/-- What can be done with a form. -/
def prospect? (rules : ReductionRules) (form : Form) : Option (Prospect Form Reduction) := do
  let found ← rules.reductions? form
  if form = [.nonterminal rules.start] then return .goal found
  else
    match found with
    | [] => return .deadEnd .noReductions
    | first :: others => return .choice first others

/-- The forms as a search space in which windows are compared and ranges are replaced. -/
def checkedSpace (rules : ReductionRules) : CheckedSpace Form Reduction where
  prospect := rules.prospect?
  take form r := splice? form r.span.start r.span.stop [.nonterminal r.nonterminal]
  candidate _ r := r.candidate
  chosen taken := .reduce taken.nonterminal taken.production
  abandoned form := .abandonReduction (Form.text form)
  step form action := some { action, form }
  giveUp form reason := some (rules.giveUp form reason)

end ReductionRules

/-- The windows that are equal to a pattern stand where the pattern occurs. -/
lemma filterMap_windows (pattern form : Form) (position : Nat) :
    ((windows pattern.length form).zipIdx position).filterMap
        (fun window => if window.1 = pattern then some window.2 else none) =
      Form.occurrencesFrom pattern position form := by
  induction form generalizing position with
  | nil => rfl
  | cons symbol rest ih =>
    have hstarting : pattern.isPrefixOf (symbol :: rest) = true ↔
        (symbol :: rest).take pattern.length = pattern := by
      rw [List.isPrefixOf_iff_prefix, List.prefix_iff_eq_take, eq_comm]
    rw [Form.occurrencesFrom, windows, ← ih]
    by_cases hlength : pattern.length ≤ (symbol :: rest).length
    · rw [if_pos hlength, List.zipIdx_cons, List.filterMap_cons]
      split_ifs with hwindow hstarts hstarts
      · rfl
      · exact absurd (hstarting.mpr hwindow) hstarts
      · exact absurd (hstarting.mp hstarts) hwindow
      · rfl
    · -- the rest is too short for a window as well
      have hstarts : ¬pattern.isPrefixOf (symbol :: rest) = true := fun hstarts =>
        hlength (List.isPrefixOf_iff_prefix.mp hstarts).length_le
      have hnone : windows pattern.length rest = [] := by
        cases rest with
        | nil => rfl
        | cons next rest =>
          rw [windows, if_neg]
          simp only [List.length_cons] at hlength ⊢
          omega
      rw [if_neg hlength, if_neg hstarts, hnone]
      rfl

lemma Pattern.reductions?_eq {pattern : Pattern} (h : pattern.symbols ≠ []) (form : Form) :
    pattern.reductions? form = some (pattern.reductions form) := by
  have hlength : pattern.symbols.length ≠ 0 := mt List.length_eq_zero_iff.mp h
  rw [reductions?, windows?, if_neg hlength, reductions, ← filterMap_windows, List.map_filterMap]
  simp only [Option.bind_eq_bind, Option.bind_some, Option.pure_def]
  congr 1
  refine List.filterMap_congr fun window _ => ?_
  split_ifs <;> rfl

/-- No window of length zero is looked at, since an empty production is no pattern. -/
lemma Grammar.symbols_ne_nil {pattern : Pattern} (h : pattern ∈ g.reductionRules.patterns) :
    pattern.symbols ≠ [] := by
  obtain ⟨name, p, -, hempty, rfl⟩ := mem_patterns.mp h
  exact p.symbols_char_ne_nil hempty

lemma mapM_eq_some {β : Type} {list : List α} {f : α → Option β} {f' : α → β}
    (h : ∀ a ∈ list, f a = some (f' a)) : list.mapM f = some (list.map f') := by
  induction list with
  | nil => rfl
  | cons a list ih =>
    rw [List.forall_mem_cons] at h
    rw [List.mapM_cons, h.1, ih h.2]
    rfl

lemma Grammar.reductions?_eq (g : Grammar) (form : Form) :
    g.reductionRules.reductions? form = some (g.reductionRules.reductions form) := by
  rw [ReductionRules.reductions?, ReductionRules.reductions]
  split_ifs
  · rfl
  · have hfound : g.reductionRules.patterns.mapM (Pattern.reductions? form) =
        some (g.reductionRules.patterns.map (Pattern.reductions form)) :=
      mapM_eq_some fun pattern hpattern => pattern.reductions?_eq (symbols_ne_nil hpattern) form
    rw [hfound]
    rfl

lemma Grammar.prospect?_eq (g : Grammar) (form : Form) :
    g.reductionRules.prospect? form = some (g.reductionRules.prospect form) := by
  rw [ReductionRules.prospect?, g.reductions?_eq, ReductionRules.prospect]
  simp only [Option.bind_eq_bind, Option.bind_some, Option.pure_def]
  generalize g.reductionRules.reductions form = found
  split_ifs
  · rfl
  · cases found <;> rfl

lemma splice?_occurrence (before symbols after : Form) (name : String) :
    splice? (before ++ symbols ++ after) before.length (before.length + symbols.length)
      [.nonterminal name] = some (before ++ .nonterminal name :: after) := by
  have hstop : before.length + symbols.length = (before ++ symbols).length := by simp
  rw [splice?, if_pos (by simp), hstop, List.drop_left, List.append_assoc before symbols after,
    List.take_left, List.append_assoc, List.singleton_append]

/-- A checked reduction looks up what the reduction works with. -/
lemma Grammar.agrees_reductions (g : Grammar) :
    g.reductionRules.checkedSpace.Agrees g.reductionRules.space id (fun _ => True)
      (fun _ => 0) where
  prospect {form} _ := ⟨_, g.prospect?_eq form, (Prospect.map_id _).symm⟩
  forced := by
    intro form next action _ h
    cases finds_of_eq (Option.some.inj ((g.prospect?_eq form).symm.trans h))
  take := by
    intro form first r others _ h hr
    have hprospect := Option.some.inj ((g.prospect?_eq form).symm.trans h)
    cases finds_of_eq hprospect with
    | choice _ hfound =>
      rw [← hfound] at hr
      obtain ⟨name, p, span⟩ := r
      obtain ⟨-, before, after, rfl, hspan⟩ := (mem_reductions.mp hr).exists_occurrence
      obtain rfl : span = ⟨before.length, before.length + (p.symbols .char).length⟩ := hspan
      exact ⟨_, splice?_occurrence .., Reduction.apply_occurrence .., trivial, Nat.le_refl _⟩
  candidate _ _ := rfl
  chosen _ := rfl
  abandoned _ := rfl
  step _ _ := rfl
  giveUp _ _ := rfl

/-! ### Ranges -/

/-- A choice between all alternatives of the nonterminal in front, at a boundary of the input. -/
structure Grammar.RestoresCursor (g : Grammar) (input : String) (c : Choice Cursor Production) :
    Prop where
  several : 2 ≤ c.alternatives.length
  taken : 1 ≤ c.cursor
  cursor_le : c.cursor ≤ c.alternatives.length
  position : IsBoundary input c.snapshot.position
  front : ∃ name rest, c.snapshot.form = .nonterminal name :: rest ∧
    g.alternatives? name = some c.alternatives

/-- A search for a derivation that reads its input from a boundary, and can do so from all of its
choices. Younger choices are not before older ones. -/
structure Grammar.CursorsInRange (g : Grammar) (input : String)
    (s : SearchState Cursor Production) : Prop where
  position : IsBoundary input s.position.position
  choices : ∀ c ∈ s.choices, g.RestoresCursor input c
  ordered : s.choices.Pairwise fun younger older =>
    older.snapshot.position ≤ younger.snapshot.position
  behind : ∀ c ∈ s.choices, c.snapshot.position ≤ s.position.position

/-- A reduction of a form whose span holds the symbols of its production. -/
structure Grammar.SpansIn (g : Grammar) (form : Form) (r : Reduction) : Prop where
  production : g.HasProduction r.nonterminal r.production
  start_le : r.span.start ≤ r.span.stop
  stop_le : r.span.stop ≤ form.length
  length : r.span.stop - r.span.start = (r.production.symbols .char).length
  symbols : (form.drop r.span.start).take (r.span.stop - r.span.start) = r.production.symbols .char
  empty : r.production.isEmpty = true → r.span = ⟨0, 0⟩ ∧ form = []

/-- A search that has made no choice yet, and in whose form terminals are replaced where it has
some. -/
structure Grammar.ReplacesInside (g : Grammar) (s : SearchState Form Reduction) : Prop where
  choices : s.choices = []
  inside {next : SearchState Form Reduction} : Replaces g.lexicalClasses s next →
    ∃ index text name, s.position[index]? = some (.terminal text) ∧
      splice? s.position index (index + 1) [.nonterminal name] = some next.position

/-- A choice between several reductions of its form. -/
structure Grammar.RestoresForm (g : Grammar) (c : Choice Form Reduction) : Prop where
  several : 2 ≤ c.alternatives.length
  taken : 1 ≤ c.cursor
  cursor_le : c.cursor ≤ c.alternatives.length
  spans : ∀ r ∈ c.alternatives, g.SpansIn c.snapshot r

lemma Grammar.Offers.spansIn {r : Reduction} (h : g.Offers form r) : g.SpansIn form r := by
  obtain ⟨hp, before, after, hform, hspan⟩ := h.exists_occurrence
  have hempty : r.production.isEmpty = true → r.span = ⟨0, 0⟩ ∧ form = [] := by
    intro hempty
    cases h with
    | occurrence _ _ _ hnonempty => exact absurd (hempty.symm.trans hnonempty) (by decide)
    | empty => exact ⟨rfl, rfl⟩
  subst hform
  refine ⟨hp, ?_, ?_, ?_, ?_, hempty⟩ <;> rw [hspan]
  · exact Nat.le_add_right ..
  · simp
  · simp
  · simp

lemma Grammar.cursorsInRange {s : SearchState Cursor Production}
    (h : (g.checkedDerivations input).Stands (fun c => IsBoundary input c.position)
      Cursor.position s) : g.CursorsInRange input s where
  position := h.position
  choices := by
    intro c hc
    have hkeeps := h.choices c hc
    obtain ⟨first, others, hchoice, halternatives⟩ := hkeeps.alternatives
    obtain ⟨name, rest, hform, hname⟩ := Cursor.of_choice hchoice
    exact ⟨hkeeps.several, hkeeps.taken, hkeeps.cursor_le, hkeeps.snapshot, name, rest, hform,
      halternatives ▸ hname⟩
  ordered := h.ordered
  behind := h.behind

lemma Grammar.restoresForm {c : Choice Form Reduction}
    (h : g.reductionRules.checkedSpace.Keeps (fun _ => True) c) : g.RestoresForm c where
  several := h.several
  taken := h.taken
  cursor_le := h.cursor_le
  spans := by
    obtain ⟨first, others, hchoice, halternatives⟩ := h.alternatives
    have hprospect := Option.some.inj ((g.prospect?_eq c.snapshot).symm.trans hchoice)
    cases finds_of_eq hprospect with
    | choice _ hfound =>
      intro r hr
      rw [halternatives, ← hfound] at hr
      exact (mem_reductions.mp hr).spansIn

/-! ### Runs -/

variable {limit : Nat} {tokens : Form}

/-- Where a derivation that reads its input from byte offsets begins. -/
def Grammar.cursorStart (g : Grammar) : SearchState Cursor Production :=
  ⟨⟨[g.startSymbol], 0⟩, [], .empty⟩

/-- Where a search for a reduction begins, before terminals are replaced by their classes. -/
def Form.reductionStart (tokens : Form) : SearchState Form Reduction :=
  ⟨tokens, [], Trace.empty.push { action := .start, form := tokens }⟩

lemma CheckedSpace.stands_of_start {P A : Type} {checked : CheckedSpace P A} {I : P → Prop}
    {measure : P → Nat} {s : SearchState P A} (hposition : I s.position)
    (hchoices : s.choices = []) : checked.Stands I measure s := by
  refine ⟨hposition, ?_, ?_, ?_⟩ <;> simp [hchoices]

lemma Grammar.stands_cursorStart (g : Grammar) (input : String) :
    (g.checkedDerivations input).Stands (fun c => IsBoundary input c.position) Cursor.position
      g.cursorStart :=
  CheckedSpace.stands_of_start ⟨"", input, by simp, rfl⟩ rfl

lemma Grammar.run_checkedDerivations (g : Grammar) (input : String) (limit : Nat) :
    (g.checkedDerivations input).run limit (limit + 1) g.cursorStart =
      some (g.searchDerivation input limit) := by
  have hslice : slice? input.toList 0 = some input.toList :=
    slice?_eq_some_iff.mpr ⟨[], rfl, rfl⟩
  have hstart : g.cursorStart.map (Cursor.derivation input) =
      ⟨g.derivationOf input, [], .empty⟩ := by
    simp [cursorStart, SearchState.map, Cursor.derivation, Cursor.unread?, hslice, derivationOf]
  rw [(g.agrees_derivations input).run_eq_some (g.stands_cursorStart input)
    (Nat.lt_succ_of_le (Nat.sub_le ..)), hstart, searchDerivation]

lemma Grammar.ReplacesTo.replacesInside {s : SearchState Form Reduction}
    (h : ReplacesTo g.lexicalClasses limit tokens.reductionStart s) : g.ReplacesInside s where
  choices := by
    cases h with
    | refl => rfl
    | tail _ hstep =>
      cases hstep.2
      rfl
  inside := by
    intro next hnext
    cases hnext with
    | @intro before after text name =>
      exact ⟨before.length, text, name, by simp, by
        simpa using splice?_occurrence before [.terminal text] after name⟩

/-- A search for a reduction begins where terminals have been replaced by their classes. -/
lemma Grammar.replacesTo_of_normalize {state : SearchState Form Reduction}
    (h : g.normalize limit tokens = .running state) :
    ReplacesTo g.lexicalClasses limit tokens.reductionStart state := by
  obtain ⟨last, hreplaces, hlast⟩ := g.exists_replacesLast limit tokens
  rw [h] at hlast
  cases hlast with
  | done => exact hreplaces

/-- No search looks anything up that is out of range. A search for a derivation reads its input from
byte offsets that are boundaries, now and whenever it goes back to a choice. A search for a
reduction replaces terminals where its form has some, compares windows with the symbols of patterns,
which have some, and replaces spans that hold the symbols of a production. -/
theorem Grammar.searches_inRange (g : Grammar) (input : String) (limit : Nat) :
    ((g.checkedDerivations input).run limit (limit + 1) g.cursorStart =
        some (g.searchDerivation input limit) ∧
      ∀ s, (g.checkedDerivations input).Reaches limit g.cursorStart s →
        g.CursorsInRange input s) ∧
    (∀ pattern ∈ g.reductionRules.patterns, 0 < pattern.symbols.length) ∧
    ∀ tokens, scan .char input = .ok tokens →
      (∀ s, ReplacesTo g.lexicalClasses limit tokens.reductionStart s → g.ReplacesInside s) ∧
      ∀ state, g.normalize limit tokens = .running state →
        ReplacesTo g.lexicalClasses limit tokens.reductionStart state ∧
        g.reductionRules.checkedSpace.run limit (limit + 1) state =
          some (g.searchReduction input limit) ∧
        ∀ s, g.reductionRules.checkedSpace.Reaches limit state s →
          ∀ c ∈ s.choices, g.RestoresForm c := by
  refine ⟨⟨g.run_checkedDerivations input limit, fun s hreach => ?_⟩, fun pattern hpattern => ?_,
    fun tokens htokens => ⟨fun s hreplaces => hreplaces.replacesInside, fun state hstate => ?_⟩⟩
  · exact cursorsInRange
      ((g.agrees_derivations input).stands_of_reaches (g.stands_cursorStart input) hreach)
  · exact List.length_pos_iff.mpr (symbols_ne_nil hpattern)
  · have hreplaces := replacesTo_of_normalize hstate
    have hstands : g.reductionRules.checkedSpace.Stands (fun _ => True) (fun _ => 0) state :=
      CheckedSpace.stands_of_start trivial hreplaces.replacesInside.choices
    refine ⟨hreplaces, ?_, ?_⟩
    · rw [g.agrees_reductions.run_eq_some hstands (Nat.lt_succ_of_le (Nat.sub_le ..)),
        SearchState.map_id, searchReduction, htokens]
      dsimp only
      rw [hstate]
    · intro s hreach c hc
      exact restoresForm ((g.agrees_reductions.stands_of_reaches hstands hreach).choices c hc)

theorem Grammar.pairs_and_sums_inRange :
    (∃ s, (Grammar.pairs.checkedDerivations "ab").Reaches 100 Grammar.pairs.cursorStart s ∧
      s.choices.length = 1 ∧ s.position.position = 1 ∧ Grammar.pairs.CursorsInRange "ab" s) ∧
    ∃ tokens state s, scan .char "1+0" = .ok tokens ∧
      Grammar.sums.normalize 100 tokens = .running state ∧
      Grammar.sums.reductionRules.checkedSpace.Reaches 100 state s ∧ s.choices.length = 1 ∧
      ∀ c ∈ s.choices, Grammar.sums.RestoresForm c := by
  constructor
  · have hmoves : ∃ s, (Grammar.pairs.checkedDerivations "ab").Reaches 100
        Grammar.pairs.cursorStart s ∧ s.choices.length = 1 ∧ s.position.position = 1 :=
      ⟨_, .tail (.tail .refl ⟨by decide, _, rfl, rfl⟩) ⟨by decide, _, rfl, rfl⟩, rfl, rfl⟩
    obtain ⟨s, hreach, hlength, hposition⟩ := hmoves
    exact ⟨s, hreach, hlength, hposition, (Grammar.pairs.searches_inRange "ab" 100).1.2 s hreach⟩
  · have htokens : scan .char "1+0" = .ok [.terminal "1", .terminal "+", .terminal "0"] :=
      scan_of_plain (by decide) (by decide)
    have hmoves : ∃ state s,
        Grammar.sums.normalize 100 [.terminal "1", .terminal "+", .terminal "0"] =
          .running state ∧
        Grammar.sums.reductionRules.checkedSpace.Reaches 100 state s ∧ s.choices.length = 1 :=
      ⟨_, _, rfl, .tail .refl ⟨by decide, _, rfl, rfl⟩, rfl⟩
    obtain ⟨state, s, hstate, hreach, hlength⟩ := hmoves
    have hchoices := (Grammar.sums.searches_inRange "1+0" 100).2.2 _ htokens
    exact ⟨_, state, s, htokens, hstate, hreach, hlength, (hchoices.2 state hstate).2.2 s hreach⟩

end GrammarTrace
