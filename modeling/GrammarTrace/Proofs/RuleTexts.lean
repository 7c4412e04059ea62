import GrammarTrace.Proofs.Derivability
import GrammarTrace.Proofs.RuleLines
import GrammarTrace.RuleText.Reading

/-!
# Rule texts, written and read

Rules are written as a text with a line for each of them. Reading such a text gives the rules back
in their order, and every grammar that is read from any text can be written in this way
(`RuleText.read_write`).
-/

namespace GrammarTrace

/-! ### Tables that are filled from lists -/

namespace Table

variable {β : Type} {name : String} {value : β} {entry : String × β}
  {entries : List (String × β)}

lemma assign_of_not_mem (h : name ∉ entries.map Prod.fst) :
    assign name value entries = entries ++ [(name, value)] := by
  induction entries with
  | nil => rfl
  | cons entry rest ih =>
    rw [List.map_cons, List.mem_cons, not_or] at h
    rw [assign, if_neg (Ne.symm h.1), ih h.2, List.cons_append]

lemma mem_of_mem_assign (h : entry ∈ assign name value entries) :
    entry = (name, value) ∨ entry ∈ entries := by
  induction entries with
  | nil => exact .inl (List.mem_singleton.mp h)
  | cons first rest ih =>
    rw [assign] at h
    split_ifs at h
    · rcases List.mem_cons.mp h with h | h
      · exact .inl h
      · exact .inr (List.mem_cons_of_mem _ h)
    · rcases List.mem_cons.mp h with rfl | h
      · exact .inr List.mem_cons_self
      · exact (ih h).imp_right (List.mem_cons_of_mem _)

lemma entries_ofList_concat (entries : List (String × β)) (entry : String × β) :
    (ofList (entries ++ [entry])).entries = assign entry.1 entry.2 (ofList entries).entries := by
  rw [ofList, List.foldl_append]
  rfl

/-- A table that is filled from a list without repetitions has the entries of the list. -/
lemma entries_ofList (h : (entries.map Prod.fst).Nodup) : (ofList entries).entries = entries := by
  induction entries using List.reverseRecOn with
  | nil => rfl
  | append_singleton entries entry ih =>
    rw [List.map_append, List.map_singleton, List.nodup_append] at h
    obtain ⟨hentries, -, hdisjoint⟩ := h
    have hnew : entry.1 ∉ entries.map Prod.fst :=
      fun hmem => hdisjoint _ hmem _ List.mem_cons_self rfl
    rw [entries_ofList_concat, ih hentries, assign_of_not_mem hnew]

lemma mem_of_mem_ofList (h : entry ∈ (ofList entries).entries) : entry ∈ entries := by
  induction entries using List.reverseRecOn with
  | nil => cases h
  | append_singleton entries last ih =>
    rw [entries_ofList_concat] at h
    rcases mem_of_mem_assign h with rfl | h
    · simp
    · exact List.mem_append_left _ (ih h)

lemma entries_ofList_ne_nil (h : entries ≠ []) : (ofList entries).entries ≠ [] := by
  induction entries using List.reverseRecOn with
  | nil => exact absurd rfl h
  | append_singleton entries last =>
    have hmem : last.1 ∈ (assign last.1 last.2 (ofList entries).entries).map Prod.fst :=
      mem_keys_assign.mpr (.inl rfl)
    rw [entries_ofList_concat]
    exact List.ne_nil_of_mem (List.mem_map.mp hmem).choose_spec.1

lemma eq_of_entries {table other : Table β} (h : table.entries = other.entries) :
    table = other := by
  cases table
  cases other
  cases h
  rfl

end Table

namespace RuleText

/-- Whether rules can be written as a text. -/
structure Writable (rules : List (String × List Production)) : Prop where
  ne_nil : rules ≠ []
  nodup : (rules.map Prod.fst).Nodup
  isRule : ∀ rule ∈ rules, IsRule rule

/-- Rules as a text, each in a line; the last line is not ended. -/
def write (rules : List (String × List Production)) : String :=
  "\n".intercalate (rules.map writeRule)

/-- What comes of reading lines, those left out that are no rule lines. -/
def outcomes (file : String) (lines : List (List Char)) (number : Nat) :
    List (Except (Diagnostic RuleFault) (String × Definition)) :=
  ((lines.map .ok).zipIdx number).filterMap (readLine file)

variable {file source ending : String} {rules : List (String × List Production)}
  {lines : List (List Char)} {number : Nat} {reading : Reading}
  {definition : String × Definition}

lemma read_eq_ok_iff : read file source = .ok reading ↔
    faults (outcomes file (Text.lines source) 1) = [] ∧
      results (outcomes file (Text.lines source) 1) ≠ [] ∧
      reading = ofDefinitions (.ofList (results (outcomes file (Text.lines source) 1))) := by
  simp only [read, readLines, outcomes]
  split
  · next hfaults hresults => exact ⟨nofun, fun h => absurd hresults h.2.1⟩
  · next hfaults hresults =>
    exact ⟨fun h => ⟨hfaults, hresults, (Except.ok.inj h).symm⟩, fun h => h.2.2 ▸ rfl⟩
  · next hfaults _ => exact ⟨nofun, fun h => absurd h.1 hfaults⟩

lemma results_map_ok (definitions : List (String × Definition)) :
    results (definitions.map .ok) = definitions := by
  simp [results, List.filterMap_map]

lemma faults_map_ok (definitions : List (String × Definition)) :
    faults (definitions.map .ok) = [] := by
  simp [faults, List.filterMap_map]

/-! ### Texts that are written -/

lemma lines_write (h : Writable rules) (hending : ending ∈ ["", "\n"]) :
    Text.lines (write rules ++ ending) = rules.map fun rule => (writeRule rule).toList := by
  have hsurvive : ∀ line ∈ rules.map (fun rule => (writeRule rule).toList),
      Text.Survives '\n' '\r' line := by
    intro line hline
    obtain ⟨rule, hrule, rfl⟩ := List.mem_map.mp hline
    exact survives_writeRule (h.isRule rule hrule)
  have hne : rules.map (fun rule => (writeRule rule).toList) ≠ [] := by simp [h.ne_nil]
  have hwrite : (write rules).toList =
      ['\n'].intercalate (rules.map fun rule => (writeRule rule).toList) := by
    simp [write, Function.comp_def]
  rw [Text.lines, String.toList_append, hwrite]
  rcases List.mem_pair.mp hending with rfl | rfl
  · rw [String.toList_empty, List.append_nil, Text.cutLines_intercalate hsurvive hne]
  · exact Text.cutLines_intercalate_append hsurvive hne

lemma outcomes_write (file : String) (number : Nat) (h : ∀ rule ∈ rules, IsRule rule) :
    ∃ definitions : List (String × Definition),
      outcomes file (rules.map fun rule => (writeRule rule).toList) number =
          definitions.map .ok ∧
        definitions.map (fun d => (d.1, d.2.alternatives)) = rules := by
  induction rules generalizing number with
  | nil => exact ⟨[], rfl, rfl⟩
  | cons rule rules ih =>
    obtain ⟨hrule, hrules⟩ := List.forall_mem_cons.mp h
    obtain ⟨definitions, houtcomes, hdefinitions⟩ := ih (number + 1) hrules
    have hline : readLine file (.ok (writeRule rule).toList, number) =
        some (.ok (rule.1, ⟨rule.2, ⟨file, number⟩⟩)) := by
      rw [readLine]
      dsimp only
      rw [if_pos (isRuleLine_writeRule hrule), readRule_writeRule hrule]
    refine ⟨(rule.1, ⟨rule.2, ⟨file, number⟩⟩) :: definitions, ?_, ?_⟩
    · rw [outcomes, List.map_cons, List.map_cons, List.zipIdx_cons, List.filterMap_cons, hline,
        List.map_cons, ← houtcomes]
      rfl
    · rw [List.map_cons, hdefinitions]

/-- Reading the text of rules gives the rules. -/
lemma exists_read_write (file : String) (h : Writable rules) (hending : ending ∈ ["", "\n"]) :
    ∃ reading, read file (write rules ++ ending) = .ok reading ∧
      reading.grammar.rules.entries = rules := by
  obtain ⟨definitions, houtcomes, hdefinitions⟩ := outcomes_write file 1 h.isRule
  have hresults : results (outcomes file (Text.lines (write rules ++ ending)) 1) = definitions := by
    rw [lines_write h hending, houtcomes, results_map_ok]
  have hfaults : faults (outcomes file (Text.lines (write rules ++ ending)) 1) = [] := by
    rw [lines_write h hending, houtcomes, faults_map_ok]
  have hnodup : (definitions.map Prod.fst).Nodup := by
    have hnames := h.nodup
    rwa [← hdefinitions, List.map_map] at hnames
  have hne : definitions ≠ [] := by
    rintro rfl
    exact h.ne_nil hdefinitions.symm
  refine ⟨_, read_eq_ok_iff.mpr ⟨hfaults, hresults.symm ▸ hne, rfl⟩, ?_⟩
  rw [hresults, ← hdefinitions]
  change (Table.ofList definitions).entries.map _ = _
  rw [Table.entries_ofList hnodup]

/-! ### Texts that are read -/

lemma exists_of_readLine {line : List Char}
    (h : readLine file (.ok line, number) = some (.ok definition)) :
    ∃ rule, readRule line = .ok rule ∧ definition.1 = rule.name ∧
      definition.2.alternatives = rule.alternatives := by
  rw [readLine] at h
  dsimp only at h
  split_ifs at h with hline
  split at h
  · cases h
  · next rule hrule =>
    cases h
    exact ⟨rule, hrule, rfl, rfl⟩

lemma exists_line_of_mem_results (h : definition ∈ results (outcomes file lines number)) :
    ∃ line ∈ lines, ∃ rule, readRule line = .ok rule ∧ definition.1 = rule.name ∧
      definition.2.alternatives = rule.alternatives := by
  obtain ⟨outcome, houtcome, hdefinition⟩ := List.mem_filterMap.mp h
  obtain ⟨⟨found, number⟩, hfound, hread⟩ := List.mem_filterMap.mp houtcome
  obtain ⟨line, hline, rfl⟩ := List.mem_map.mp (List.fst_mem_of_mem_zipIdx hfound)
  cases outcome with
  | error => cases hdefinition
  | ok found =>
    cases hdefinition
    exact ⟨line, hline, exists_of_readLine hread⟩

/-- The rules that are read from a text can be written. -/
lemma writable_of_read (h : read file source = .ok reading) :
    Writable reading.grammar.rules.entries := by
  obtain ⟨-, hne, rfl⟩ := read_eq_ok_iff.mp h
  refine ⟨?_, Table.nodup _, ?_⟩
  · exact mt List.map_eq_nil_iff.mp (Table.entries_ofList_ne_nil hne)
  · intro rule hrule
    obtain ⟨definition, hdefinition, rfl⟩ := List.mem_map.mp hrule
    obtain ⟨line, hline, stated, hstated, hname, halternatives⟩ :=
      exists_line_of_mem_results (Table.mem_of_mem_ofList hdefinition)
    have hrule := isRule_of_readRule hstated (Text.isInfix_of_mem_cutLines hline).2
    rwa [← hname, ← halternatives] at hrule

lemma grammar_of_read (h : read file source = .ok reading) :
    reading.grammar = Grammar.ofRules reading.grammar.rules := by
  obtain ⟨-, -, rfl⟩ := read_eq_ok_iff.mp h
  rfl

/-- Reading the text of rules, whether its last line is ended or not, gives a grammar with these
rules that starts at the first one. The rules of any grammar that is read can be written, and reading
what is written gives the same grammar again. -/
theorem read_write (file : String) :
    (∀ rules, Writable rules → ∀ ending ∈ ["", "\n"],
      ∃ reading, read file (write rules ++ ending) = .ok reading ∧
        reading.grammar.rules.entries = rules ∧
        rules.head?.map Prod.fst = some reading.grammar.start) ∧
    ∀ source reading, read file source = .ok reading →
      Writable reading.grammar.rules.entries ∧
        ∀ ending ∈ ["", "\n"], ∃ again,
          read file (write reading.grammar.rules.entries ++ ending) = .ok again ∧
            again.grammar = reading.grammar := by
  constructor
  · intro rules hrules ending hending
    obtain ⟨reading, hread, hentries⟩ := exists_read_write file hrules hending
    refine ⟨reading, hread, hentries, ?_⟩
    obtain ⟨rule, rest, rfl⟩ := List.exists_cons_of_ne_nil hrules.ne_nil
    rw [grammar_of_read hread, Grammar.ofRules, Table.names, hentries]
    rfl
  · intro source reading hread
    have hrules := writable_of_read hread
    refine ⟨hrules, fun ending hending => ?_⟩
    obtain ⟨again, hagain, hentries⟩ := exists_read_write file hrules hending
    refine ⟨again, hagain, ?_⟩
    rw [grammar_of_read hagain, grammar_of_read hread, Table.eq_of_entries hentries]

theorem pairs_read_write :
    (Writable Grammar.pairs.rules.entries ∧ "\n" ∈ ["", "\n"] ∧
      ∃ reading, read "" (write Grammar.pairs.rules.entries ++ "\n") = .ok reading ∧
        reading.grammar.rules.entries = Grammar.pairs.rules.entries ∧
        Grammar.pairs.rules.entries.head?.map Prod.fst = some reading.grammar.start) ∧
    ∃ reading, read "" "; a comment\n <S> :=a<S>b|\r\n" = .ok reading ∧
      Writable reading.grammar.rules.entries ∧
        ∃ again, read "" (write reading.grammar.rules.entries ++ "\n") = .ok again ∧
          again.grammar = reading.grammar := by
  have hending : "\n" ∈ ["", "\n"] := by decide
  have hwritable : Writable Grammar.pairs.rules.entries := by
    refine ⟨by decide, by decide, ?_⟩
    intro rule hrule
    obtain rfl := List.mem_singleton.mp hrule
    refine ⟨⟨['S'], by decide, by simp, by decide +kernel⟩, by decide, ?_⟩
    intro p hp
    rcases List.mem_pair.mp hp with rfl | rfl
    · exact ⟨by decide +kernel, by decide, by decide, by decide +kernel⟩
    · exact ⟨by decide +kernel, by decide, by decide, by decide +kernel⟩
  have hread : (read "" "; a comment\n <S> :=a<S>b|\r\n").toBool = true := by decide +kernel
  refine ⟨⟨hwritable, hending, (read_write "").1 _ hwritable _ hending⟩, ?_⟩
  cases hreading : read "" "; a comment\n <S> :=a<S>b|\r\n" with
  | error faults =>
    rw [hreading] at hread
    cases hread
  | ok reading =>
    obtain ⟨hrules, hagain⟩ := (read_write "").2 _ reading hreading
    exact ⟨reading, rfl, hrules, hagain _ hending⟩

end RuleText

end GrammarTrace
