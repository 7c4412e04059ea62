import GrammarTrace.Proofs.LineReports

/-!
# Rules that are defined again

The rule lines of a text define names one after the other. A grammar has the names in the order of
their first definitions, each with the alternatives of its last one, and the warnings follow the
grammar (`RuleText.reading_of_definitions`). So they need not follow the text: a rule that is
defined again after the next one is warned of at a later line, and before the next one
(`RuleText.warnings_ascend_iff`).
-/

namespace GrammarTrace

/-! ### First occurrences -/

lemma eraseDups_concat (names : List String) (name : String) : (names ++ [name]).eraseDups =
    if name ∈ names then names.eraseDups else names.eraseDups ++ [name] := by
  rw [List.eraseDups_append]
  split_ifs with hmem
  · simp [List.removeAll, hmem]
  · simp [List.removeAll, hmem, List.eraseDups_cons]

/-- What is left of a list without repetitions is in the order of first occurrence. -/
lemma eraseDups_pairwise (names : List String) :
    names.eraseDups.Pairwise fun name other => names.idxOf name < names.idxOf other := by
  induction names using List.reverseRecOn with
  | nil => exact .nil
  | append_singleton names last ih =>
    have hkept : names.eraseDups.Pairwise fun name other =>
        (names ++ [last]).idxOf name < (names ++ [last]).idxOf other := by
      refine ih.imp_of_mem fun hname hother hlt => ?_
      rwa [List.idxOf_append_of_mem (List.mem_eraseDups.mp hname),
        List.idxOf_append_of_mem (List.mem_eraseDups.mp hother)]
    rw [eraseDups_concat]
    split_ifs with hmem
    · exact hkept
    · refine List.pairwise_append.mpr
        ⟨hkept, List.pairwise_singleton .., fun name hname other hother => ?_⟩
      obtain rfl := List.mem_singleton.mp hother
      have hname := List.mem_eraseDups.mp hname
      rw [List.idxOf_append_of_mem hname, List.idxOf_append_of_notMem hmem]
      exact Nat.lt_add_right _ (List.idxOf_lt_length_of_mem hname)

/-- In a list that is in the order of a rank, what holds between earlier and later members is what
holds between members of smaller and larger rank. -/
lemma pairwise_iff_of_rank {α : Type} {rank : α → Nat} {R : α → α → Prop} {list : List α}
    (hrank : list.Pairwise fun a b => rank a < rank b) :
    list.Pairwise R ↔ ∀ a ∈ list, ∀ b ∈ list, rank a < rank b → R a b := by
  constructor
  · intro h a ha b hb hlt
    obtain ⟨i, hi, rfl⟩ := List.mem_iff_getElem.mp ha
    obtain ⟨j, hj, rfl⟩ := List.mem_iff_getElem.mp hb
    rw [List.pairwise_iff_getElem] at h hrank
    obtain hij | rfl | hji := Nat.lt_trichotomy i j
    · exact h i j hi hj hij
    · exact absurd hlt (Nat.lt_irrefl _)
    · exact absurd hlt (Nat.lt_asymm (hrank j i hj hi hji))
  · exact fun h => hrank.imp_of_mem fun ha hb hlt => h _ ha _ hb hlt

/-! ### Tables that are filled with repetitions -/

namespace Table

variable {β : Type} {entry last : String × β} {entries : List (String × β)}

/-- Whether an entry of a list is the last one of its name. -/
def IsLast (entries : List (String × β)) (entry : String × β) : Prop :=
  ∃ before after, entries = before ++ entry :: after ∧ entry.1 ∉ after.map Prod.fst

lemma IsLast.mem (h : IsLast entries entry) : entry ∈ entries := by
  obtain ⟨before, after, rfl, -⟩ := h
  exact List.mem_append_right _ List.mem_cons_self

lemma isLast_concat_iff : IsLast (entries ++ [last]) entry ↔
    entry = last ∨ entry.1 ≠ last.1 ∧ IsLast entries entry := by
  constructor
  · rintro ⟨before, after, heq, hnot⟩
    rcases List.eq_nil_or_concat' after with rfl | ⟨after, final, rfl⟩
    · exact .inl (List.append_inj_right' heq rfl |> List.singleton_inj.mp).symm
    · rw [← List.cons_append, ← List.append_assoc] at heq
      obtain ⟨rfl, hfinal⟩ := List.append_inj' heq rfl
      obtain rfl := List.singleton_inj.mp hfinal
      rw [List.map_append, List.mem_append, not_or] at hnot
      exact .inr ⟨by simpa using hnot.2, before, after, rfl, hnot.1⟩
  · rintro (rfl | ⟨hne, before, after, rfl, hnot⟩)
    · exact ⟨entries, [], rfl, List.not_mem_nil⟩
    · refine ⟨before, after ++ [last], by simp, ?_⟩
      rw [List.map_append, List.mem_append, not_or]
      exact ⟨hnot, by simpa using hne⟩

lemma ofList_concat (entries : List (String × β)) (last : String × β) :
    ofList (entries ++ [last]) = (ofList entries).insert last.1 last.2 := by
  rw [ofList, List.foldl_append]
  rfl

/-- The names come in the order in which they are first assigned to. -/
lemma names_ofList (entries : List (String × β)) :
    (ofList entries).names = (entries.map Prod.fst).eraseDups := by
  induction entries using List.reverseRecOn with
  | nil => rfl
  | append_singleton entries last ih =>
    rw [ofList_concat, names_insert, ih, List.map_append, List.map_singleton, eraseDups_concat]
    simp only [List.mem_eraseDups]

/-- A name has the value that is assigned to it last. -/
lemma mem_ofList_iff : entry ∈ (ofList entries).entries ↔ IsLast entries entry := by
  induction entries using List.reverseRecOn with
  | nil =>
    refine ⟨nofun, ?_⟩
    rintro ⟨before, after, heq, -⟩
    simp at heq
  | append_singleton entries last ih =>
    have hget : ∀ table : Table β, entry ∈ table.entries ↔ table.get? entry.1 = some entry.2 :=
      fun table => get?_eq_some_iff.symm
    rw [isLast_concat_iff, ← ih, hget, hget, ofList_concat, get?_insert, Prod.ext_iff]
    split_ifs with hname
    · simp [hname, eq_comm]
    · simp [hname]

end Table

namespace RuleText

open Table (IsLast)

/-- The rule lines of a text with their numbers. -/
def ruleLines (source : String) : List (List Char × Nat) :=
  ((Text.lines source).zipIdx 1).filter fun line => isRuleLine line.1

/-- Whether a numbered line states a definition of a name. -/
structure States (file : String) (line : List Char × Nat) (entry : String × Definition) : Prop where
  readRule_eq : readRule line.1 = .ok ⟨entry.1, entry.2.alternatives⟩
  location_eq : entry.2.location = ⟨file, line.2⟩

/-- The nonterminals that a definition uses and that are not among some names, each once and in the
order of first use. -/
def missing (names : List String) (d : Definition) : List String :=
  (d.alternatives.flatMap Production.nonterminals).eraseDups.filter fun name => name ∉ names

/-- What is left of some definitions: each name once, in the order of first definition, as it is
defined last. -/
structure Leaves (definitions surviving : List (String × Definition)) : Prop where
  names : surviving.map Prod.fst = (definitions.map Prod.fst).eraseDups
  mem_iff : ∀ entry, entry ∈ surviving ↔ IsLast definitions entry

/-- The grammar and the warnings that come of the definitions of a text. -/
structure Summarizes (definitions surviving : List (String × Definition)) (reading : Reading) :
    Prop where
  leaves : Leaves definitions surviving
  start : (definitions.map Prod.fst).head? = some reading.grammar.start
  rules : reading.grammar.rules.entries = surviving.map fun entry => (entry.1, entry.2.alternatives)
  warnings : reading.warnings = surviving.flatMap fun entry =>
    (missing (definitions.map Prod.fst) entry.2).map fun name =>
      ⟨entry.2.location, .undefinedNonterminal name⟩

variable {file source : String} {reading : Reading}
  {definitions surviving : List (String × Definition)}

/-! ### The definitions of a text -/

/-- If no line is at fault, each rule line states a definition. -/
lemma states_results {lines : List (List Char × Nat)}
    (h : faults (lines.filterMap fun line => readLine file (.ok line.1, line.2)) = []) :
    List.Forall₂ (States file) (lines.filter fun line => isRuleLine line.1)
      (results (lines.filterMap fun line => readLine file (.ok line.1, line.2))) := by
  induction lines with
  | nil => exact .nil
  | cons line lines ih =>
    rw [List.filterMap_cons] at h ⊢
    cases hline : readLine file (.ok line.1, line.2) with
    | none =>
      rw [hline] at h
      rw [List.filter_cons, readLine_eq_none_iff.mp hline]
      exact ih h
    | some outcome =>
      rw [hline] at h
      cases outcome with
      | error d => cases h
      | ok entry =>
        obtain ⟨hline, hrule, hlocation⟩ := readLine_eq_ok_iff.mp hline
        rw [List.filter_cons, if_pos hline]
        exact .cons ⟨hrule, hlocation⟩ (ih h)

lemma exists_definitions (h : read file source = .ok reading) : ∃ definitions,
    List.Forall₂ (States file) (ruleLines source) definitions ∧ definitions ≠ [] ∧
      reading = ofDefinitions (.ofList definitions) := by
  obtain ⟨hfaults, hne, rfl⟩ := read_eq_ok_iff.mp h
  refine ⟨_, ?_, hne, rfl⟩
  rw [outcomes_eq] at hfaults ⊢
  exact states_results hfaults

lemma leaves_ofList (definitions : List (String × Definition)) :
    Leaves definitions (Table.ofList definitions).entries :=
  ⟨Table.names_ofList definitions, fun _ => Table.mem_ofList_iff⟩

lemma undefinedIn_ofList (definitions : List (String × Definition)) (d : Definition) :
    undefinedIn (.ofList definitions) d = missing (definitions.map Prod.fst) d := by
  refine List.filter_congr fun name _ => ?_
  have hdefined : ((Table.ofList definitions).get? name).isSome = true ↔
      name ∈ definitions.map Prod.fst := by
    rw [Table.isSome_get?_iff, Table.names_ofList, List.mem_eraseDups]
  rw [← Option.not_isSome, Bool.eq_iff_iff, Bool.not_eq_true', ← Bool.not_eq_true, hdefined,
    decide_eq_true_iff]

lemma head?_names_ofList (definitions : List (String × Definition)) :
    (Table.ofList definitions).names.head? = (definitions.map Prod.fst).head? := by
  rw [Table.names_ofList]
  cases definitions with
  | nil => rfl
  | cons first rest => rw [List.map_cons, List.eraseDups_cons, List.head?_cons, List.head?_cons]

lemma summarizes_ofDefinitions (hne : definitions ≠ []) :
    Summarizes definitions (Table.ofList definitions).entries
      (ofDefinitions (.ofList definitions)) where
  leaves := leaves_ofList definitions
  start := by
    obtain ⟨first, rest, rfl⟩ := List.exists_cons_of_ne_nil hne
    have hhead := head?_names_ofList (first :: rest)
    rw [ofDefinitions, Grammar.ofRules, Table.names_mapValues, List.headD_eq_head?_getD, hhead]
    rfl
  rules := rfl
  warnings := by
    simp only [ofDefinitions, RuleText.warnings, undefinedIn_ofList]

/-- Each rule line of a text that can be read states a definition. The grammar has the names in the
order of their first definitions, starts at the first of them and has for each name the alternatives
of its last definition. The warnings go through these definitions in this order: each of them is
reported, at its own line, once for each nonterminal of its alternatives that is defined nowhere in
the text. -/
theorem reading_of_definitions (h : read file source = .ok reading) :
    ∃ definitions surviving, List.Forall₂ (States file) (ruleLines source) definitions ∧
      Summarizes definitions surviving reading := by
  obtain ⟨definitions, hstates, hne, rfl⟩ := exists_definitions h
  exact ⟨definitions, _, hstates, summarizes_ofDefinitions hne⟩

lemma exists_reading (file source : String) (p : Reading → Prop) [DecidablePred p]
    (h : (read file source).toOption.any (fun reading => decide (p reading)) = true) :
    ∃ reading, read file source = .ok reading ∧ p reading := by
  cases hread : read file source with
  | error errors =>
    rw [hread] at h
    cases h
  | ok reading =>
    rw [hread] at h
    exact ⟨reading, rfl, of_decide_eq_true h⟩

theorem redefined_reading_of_definitions : ∃ reading,
    read "" "<S> := <X>\n<T> := <U>|<V><U>\n<S> := <T><W>|<U>\n<V> := a" = .ok reading ∧
      reading.grammar.rules.names = ["<S>", "<T>", "<V>"] ∧
      reading.warnings = [⟨⟨"", 3⟩, .undefinedNonterminal "<W>"⟩,
        ⟨⟨"", 3⟩, .undefinedNonterminal "<U>"⟩, ⟨⟨"", 2⟩, .undefinedNonterminal "<U>"⟩] ∧
      ∃ definitions surviving, List.Forall₂ (States "")
          (ruleLines "<S> := <X>\n<T> := <U>|<V><U>\n<S> := <T><W>|<U>\n<V> := a") definitions ∧
        Summarizes definitions surviving reading := by
  obtain ⟨reading, hread, hnames, hwarnings⟩ := exists_reading ""
    "<S> := <X>\n<T> := <U>|<V><U>\n<S> := <T><W>|<U>\n<V> := a"
    (fun reading => reading.grammar.rules.names = ["<S>", "<T>", "<V>"] ∧
      reading.warnings = [⟨⟨"", 3⟩, .undefinedNonterminal "<W>"⟩,
        ⟨⟨"", 3⟩, .undefinedNonterminal "<U>"⟩, ⟨⟨"", 2⟩, .undefinedNonterminal "<U>"⟩])
    (by decide +kernel)
  exact ⟨reading, hread, hnames, hwarnings, reading_of_definitions hread⟩

/-! ### Warnings and lines -/

/-- Whether diagnostics come in the order of their lines. -/
def Ascends (found : List (Diagnostic RuleFault)) : Prop :=
  (found.map fun d => d.location.line).Pairwise (· ≤ ·)

instance (found : List (Diagnostic RuleFault)) : Decidable (Ascends found) :=
  inferInstanceAs (Decidable (List.Pairwise _ _))

/-- Whether two definitions are the last ones of their names, and the one whose name is defined
first stands later. -/
structure Overtakes (definitions : List (String × Definition)) (entry other : String × Definition) :
    Prop where
  isLast : IsLast definitions entry
  isLast_other : IsLast definitions other
  first_lt : (definitions.map Prod.fst).idxOf entry.1 < (definitions.map Prod.fst).idxOf other.1
  line_lt : other.2.location.line < entry.2.location.line

/-- The numbers of the definitions ascend. -/
lemma lines_pairwise (h : List.Forall₂ (States file) (ruleLines source) definitions) :
    definitions.Pairwise fun entry other => entry.2.location.line < other.2.location.line := by
  have hnumbers : ((ruleLines source).map Prod.snd).Pairwise (· < ·) :=
    List.pairwise_map.mpr ((zipIdx_pairwise _ 1).sublist List.filter_sublist)
  have hlines : (ruleLines source).map Prod.snd =
      definitions.map fun entry => entry.2.location.line := by
    generalize ruleLines source = lines at h
    induction h with
    | nil => rfl
    | cons hstates _ ih => rw [List.map_cons, List.map_cons, ih, hstates.location_eq]
  rw [hlines] at hnumbers
  exact List.pairwise_map.mp hnumbers

lemma Leaves.pairwise (h : Leaves definitions surviving) : surviving.Pairwise fun entry other =>
    (definitions.map Prod.fst).idxOf entry.1 < (definitions.map Prod.fst).idxOf other.1 := by
  have hnames := eraseDups_pairwise (definitions.map Prod.fst)
  rwa [← h.names, List.pairwise_map] at hnames

lemma Summarizes.ascends_iff (h : Summarizes definitions surviving reading) :
    Ascends reading.warnings ↔ ∀ entry other, Overtakes definitions entry other →
      missing (definitions.map Prod.fst) entry.2 = [] ∨
        missing (definitions.map Prod.fst) other.2 = [] := by
  -- the warnings of one definition stand at one line, so only two definitions can be out of order
  have hsame : ∀ entry ∈ surviving, ((missing (definitions.map Prod.fst) entry.2).map fun name =>
      (⟨entry.2.location, .undefinedNonterminal name⟩ : Diagnostic RuleFault)).Pairwise
        fun d e => d.location.line ≤ e.location.line :=
    fun entry _ => List.pairwise_map.mpr (List.pairwise_of_forall fun _ _ => Nat.le_refl _)
  rw [Ascends, h.warnings, List.pairwise_map, List.pairwise_flatMap, and_iff_right hsame,
    pairwise_iff_of_rank h.leaves.pairwise]
  constructor
  · intro hlines entry other hover
    by_contra hmissing
    rw [not_or] at hmissing
    obtain ⟨name, hname⟩ := List.exists_mem_of_ne_nil _ hmissing.1
    obtain ⟨name', hname'⟩ := List.exists_mem_of_ne_nil _ hmissing.2
    have hle := hlines entry ((h.leaves.mem_iff _).mpr hover.isLast) other
      ((h.leaves.mem_iff _).mpr hover.isLast_other) hover.first_lt _ (List.mem_map_of_mem hname) _
      (List.mem_map_of_mem hname')
    exact Nat.not_le.mpr hover.line_lt hle
  · intro hover entry hentry other hother hlt d hd e he
    obtain ⟨name, hname, rfl⟩ := List.mem_map.mp hd
    obtain ⟨name', hname', rfl⟩ := List.mem_map.mp he
    by_contra hline
    obtain hnil | hnil := hover entry other ⟨(h.leaves.mem_iff _).mp hentry,
      (h.leaves.mem_iff _).mp hother, hlt, Nat.not_le.mp hline⟩
    · exact List.ne_nil_of_mem hname hnil
    · exact List.ne_nil_of_mem hname' hnil

/-- If no name is defined again, no definition overtakes another. -/
lemma not_overtakes (h : List.Forall₂ (States file) (ruleLines source) definitions)
    (hnodup : (definitions.map Prod.fst).Nodup) {entry other : String × Definition} :
    ¬ Overtakes definitions entry other := by
  intro hover
  have hrank := (leaves_ofList definitions).pairwise
  rw [Table.entries_ofList hnodup] at hrank
  have hlt := (pairwise_iff_of_rank hrank).mp (lines_pairwise h) entry hover.isLast.mem other
    hover.isLast_other.mem hover.first_lt
  exact Nat.lt_asymm hlt hover.line_lt

/-- The warnings of a text come in the order of their lines unless a definition overtakes another
and both of them use nonterminals that are not defined. So they do if no name is defined again; the
errors of a strict reading are the warnings and come in the same order. -/
theorem warnings_ascend_iff (h : read file source = .ok reading) :
    ∃ definitions, List.Forall₂ (States file) (ruleLines source) definitions ∧
      (Ascends reading.warnings ↔ ∀ entry other, Overtakes definitions entry other →
        missing (definitions.map Prod.fst) entry.2 = [] ∨
          missing (definitions.map Prod.fst) other.2 = []) ∧
      ((definitions.map Prod.fst).Nodup → Ascends reading.warnings) ∧
      ∀ errors, reading.strict = .error errors → errors = reading.warnings := by
  obtain ⟨definitions, hstates, hne, rfl⟩ := exists_definitions h
  have hiff := (summarizes_ofDefinitions hne).ascends_iff
  refine ⟨definitions, hstates, hiff, fun hnodup => ?_, fun errors herrors => ?_⟩
  · exact hiff.mpr fun entry other hover => absurd hover (not_overtakes hstates hnodup)
  · rw [Reading.strict] at herrors
    split_ifs at herrors
    exact (Except.error.inj herrors).symm

theorem overtaking_warnings_ascend_iff : ∃ reading,
    read "" "<S> := <X>\n<T> := a\n<S> := <Z>" = .ok reading ∧ ∃ definitions,
      List.Forall₂ (States "") (ruleLines "<S> := <X>\n<T> := a\n<S> := <Z>") definitions ∧
        (Ascends reading.warnings ↔ ∀ entry other, Overtakes definitions entry other →
          missing (definitions.map Prod.fst) entry.2 = [] ∨
            missing (definitions.map Prod.fst) other.2 = []) ∧
        ((definitions.map Prod.fst).Nodup → Ascends reading.warnings) ∧
        ∀ errors, reading.strict = .error errors → errors = reading.warnings := by
  obtain ⟨reading, hread, -⟩ := exists_reading "" "<S> := <X>\n<T> := a\n<S> := <Z>"
    (fun _ => True) (by decide +kernel)
  exact ⟨reading, hread, warnings_ascend_iff hread⟩

/-- The second definition of the first rule is warned of at line 3, before the rule of line 2. -/
theorem redefined_not_ascending :
    ¬ ∀ file source reading, read file source = .ok reading → Ascends reading.warnings := by
  intro hascends
  obtain ⟨reading, hread, hnot⟩ := exists_reading "" "<S> := <X>\n<T> := <Y>\n<S> := <Z>"
    (fun reading => ¬ Ascends reading.warnings) (by decide +kernel)
  exact hnot (hascends _ _ _ hread)

end RuleText

end GrammarTrace
