import GrammarTrace.Proofs.RuleOutcomes

/-!
# Diagnostics line by line

Every rule line of a text is judged on its own: it is reported at its number in the text if and only
if it is reported as a text of its own. Lines that come in between and are no rule lines move the
diagnostics behind them and change nothing else (`RuleText.read_reports_lines`).
-/

namespace GrammarTrace

/-! ### Locations that move -/

/-- A location after `count` lines have come in behind the first `place` lines. -/
def Location.shift (place count : Nat) (l : Location) : Location :=
  { l with line := if l.line ≤ place then l.line else l.line + count }

/-- A diagnostic after `count` lines have come in behind the first `place` lines. -/
def Diagnostic.shift {φ : Type} (place count : Nat) (d : Diagnostic φ) : Diagnostic φ :=
  { d with location := d.location.shift place count }

lemma Location.shift_of_le {file : String} {place count line : Nat} (h : line ≤ place) :
    shift place count ⟨file, line⟩ = ⟨file, line⟩ := by
  rw [shift, if_pos h]

lemma Location.shift_of_lt {file : String} {place count line : Nat} (h : place < line) :
    shift place count ⟨file, line⟩ = ⟨file, line + count⟩ := by
  rw [shift, if_neg (Nat.not_le.mpr h)]

/-! ### Tables with changed values -/

namespace Table

variable {β γ : Type}

lemma assign_map (f : β → γ) (name : String) (value : β) (entries : List (String × β)) :
    assign name (f value) (entries.map fun entry => (entry.1, f entry.2)) =
      (assign name value entries).map fun entry => (entry.1, f entry.2) := by
  induction entries with
  | nil => rfl
  | cons entry rest ih =>
    simp only [assign, List.map_cons, ih]
    split_ifs <;> rfl

lemma ofList_map (f : β → γ) (entries : List (String × β)) :
    ofList (entries.map fun entry => (entry.1, f entry.2)) = (ofList entries).mapValues f := by
  induction entries using List.reverseRecOn with
  | nil => rfl
  | append_singleton entries entry ih =>
    apply eq_of_entries
    rw [List.map_append, List.map_singleton, entries_ofList_concat, ih]
    change assign _ _ ((ofList entries).entries.map _) = List.map _ (ofList _).entries
    rw [entries_ofList_concat]
    exact assign_map f entry.1 entry.2 _

lemma isNone_get?_mapValues (f : β → γ) (table : Table β) (name : String) :
    ((table.mapValues f).get? name).isNone = (table.get? name).isNone := by
  rw [Bool.eq_iff_iff, Option.isNone_iff_eq_none, Option.isNone_iff_eq_none,
    ← Option.not_isSome_iff_eq_none, ← Option.not_isSome_iff_eq_none, isSome_get?_iff,
    isSome_get?_iff, names_mapValues]

end Table

namespace RuleText

/-- A definition after `count` lines have come in behind the first `place` lines. -/
def Definition.shift (place count : Nat) (d : Definition) : Definition :=
  { d with location := d.location.shift place count }

/-- What is read after `count` lines have come in behind the first `place` lines. -/
def shiftReading (place count : Nat) :
    Except (List (Diagnostic RuleFault)) Reading → Except (List (Diagnostic RuleFault)) Reading
  | .error errors => .error (errors.map (Diagnostic.shift place count))
  | .ok reading =>
    .ok { reading with warnings := reading.warnings.map (Diagnostic.shift place count) }

/-- What comes of a line after `count` lines have come in behind the first `place` lines. -/
def shiftOutcome (place count : Nat) :
    Except (Diagnostic RuleFault) (String × Definition) →
      Except (Diagnostic RuleFault) (String × Definition)
  | .error d => .error (d.shift place count)
  | .ok entry => .ok (entry.1, entry.2.shift place count)

/-- Whether a line is a rule line with a fault. -/
def IsFaulty (line : List Char) (fault : RuleFault) : Prop :=
  isRuleLine line = true ∧ readRule line = .error fault

/-- What is reported of the lines of a text. -/
structure ReportsLines (file source : String)
    (result : Except (List (Diagnostic RuleFault)) Reading) : Prop where
  /-- Reading fails just if a rule line has a fault or there is none. -/
  fails_iff : (∃ errors, result = .error errors) ↔
    (∃ line ∈ Text.lines source, ∃ fault, IsFaulty line fault) ∨
      ∀ line ∈ Text.lines source, isRuleLine line = false
  /-- A line has a fault just if it is the only error of the line as a text of its own. -/
  isFaulty_iff : ∀ line ∈ Text.lines source, ∀ fault, IsFaulty line fault ↔
    read file (String.ofList line) = .error [⟨⟨file, 1⟩, fault⟩]
  /-- Faulty lines are reported in their order, each of them once, at its number and with its own
  fault, and nothing else is. -/
  of_faulty : (∃ line ∈ Text.lines source, ∃ fault, IsFaulty line fault) →
    ∃ errors, result = .error errors ∧
      (errors.map fun d => d.location.line).Pairwise (· < ·) ∧
      ∀ d, d ∈ errors ↔ ∃ line number, (line, number) ∈ (Text.lines source).zipIdx 1 ∧
        ∃ fault, IsFaulty line fault ∧ d = ⟨⟨file, number⟩, fault⟩
  /-- A text without rule lines is reported as a whole. -/
  of_none : (∀ line ∈ Text.lines source, isRuleLine line = false) →
    result = .error [⟨⟨file, 0⟩, .emptyGrammar⟩]

variable {file source longer : String} {line head : List Char} {pieces lines : List (List Char)}
  {before idle after : List (List Char)} {place count number : Nat} {c : Char} {fault : RuleFault}
  {errors : List (Diagnostic RuleFault)}

/-! ### Blanks at the ends of a line -/

lemma isBlank_not_mem (hc : Text.isBlank c = true) : c ∉ [':', '='] ∧ '|' ≠ c := by
  constructor
  · rintro hmem
    rcases List.mem_pair.mp hmem with rfl | rfl <;> exact absurd hc (by decide)
  · rintro rfl
    exact absurd hc (by decide)

lemma LacksDefines.cons_blank (hline : LacksDefines line) (hc : Text.isBlank c = true) :
    LacksDefines (c :: line) :=
  lacksDefines_nil.append_cons hline (isBlank_not_mem hc).1

lemma LacksDefines.concat_blank (hline : LacksDefines line) (hc : Text.isBlank c = true) :
    LacksDefines (line ++ [c]) :=
  hline.append_cons lacksDefines_nil (isBlank_not_mem hc).1

lemma CutInto.cons_blank (h : CutInto line head pieces) (hc : Text.isBlank c = true) :
    CutInto (c :: line) (c :: head) pieces :=
  { h with
    line_eq := congrArg (c :: ·) h.line_eq
    head := h.head.cons_blank hc }

lemma CutInto.concat_blank {last : List Char} (h : CutInto line head (before ++ [last]))
    (hc : Text.isBlank c = true) : CutInto (line ++ [c]) head (before ++ [last ++ [c]]) where
  line_eq := by
    rw [intercalate_concat_append, h.line_eq]
    simp
  head := h.head
  body := by
    rw [intercalate_concat_append]
    exact h.body.concat_blank hc
  ne_nil := by simp
  bar := by
    intro piece hpiece
    rcases List.mem_append.mp hpiece with hpiece | hpiece
    · exact h.bar piece (List.mem_append_left _ hpiece)
    · obtain rfl := List.mem_singleton.mp hpiece
      have hlast := h.bar last (by simp)
      simp [hlast, (isBlank_not_mem hc).2]

lemma readRule_cons_blank (c : Char) (line : List Char) (hc : Text.isBlank c = true) :
    readRule (c :: line) = readRule line := by
  obtain hline | ⟨head, pieces, hcut⟩ | ⟨first, between, last, rfl⟩ := cuts_of_line line
  · rw [(Yields.noDefines hline).readRule_eq, (Yields.noDefines (hline.cons_blank hc)).readRule_eq]
  · have hhead : readHead (c :: head) = readHead head := by
      simp [readHead, Text.trim_cons hc, (isBlank_not_mem hc).2]
    rw [hcut.readRule_eq, (hcut.cons_blank hc).readRule_eq, hhead]
  · have hlonger : c :: (first ++ ':' :: '=' :: (between ++ ':' :: '=' :: last)) =
        (c :: first) ++ ':' :: '=' :: (between ++ ':' :: '=' :: last) := rfl
    rw [readRule_of_furtherDefines rfl, readRule_of_furtherDefines hlonger]

lemma readRule_concat_blank (c : Char) (line : List Char) (hc : Text.isBlank c = true) :
    readRule (line ++ [c]) = readRule line := by
  obtain hline | ⟨head, pieces, hcut⟩ | ⟨first, between, last, rfl⟩ := cuts_of_line line
  · rw [(Yields.noDefines hline).readRule_eq,
      (Yields.noDefines (hline.concat_blank hc)).readRule_eq]
  · obtain ⟨init, last, rfl⟩ := (List.eq_nil_or_concat' pieces).resolve_left hcut.ne_nil
    have hlast : readAlternative (last ++ [c]) = readAlternative last := by
      rw [readAlternative, readAlternative, Text.trim_concat hc]
    rw [hcut.readRule_eq, (hcut.concat_blank hc).readRule_eq]
    simp only [List.mapM_append, List.mapM_cons, hlast]
  · have hlonger : first ++ ':' :: '=' :: (between ++ ':' :: '=' :: last) ++ [c] =
        first ++ ':' :: '=' :: (between ++ ':' :: '=' :: (last ++ [c])) := by simp
    rw [readRule_of_furtherDefines rfl, readRule_of_furtherDefines hlonger]

/-- Blanks at the ends of a line do not count. -/
lemma readRule_trim (line : List Char) : readRule (Text.trim line) = readRule line :=
  Text.eq_of_trim readRule_cons_blank readRule_concat_blank line

lemma isRuleLine_trim (line : List Char) : isRuleLine (Text.trim line) = isRuleLine line := by
  rw [isRuleLine, isRuleLine, Text.trim_trim]

lemma readLine_trim (file : String) (line : List Char) (number : Nat) :
    readLine file (.ok (Text.trim line), number) = readLine file (.ok line, number) := by
  rw [readLine, readLine]
  dsimp only
  rw [isRuleLine_trim, readRule_trim]

/-! ### Lines that come in between -/

lemma outcomes_trim (file : String) (lines : List (List Char)) (number : Nat) :
    outcomes file (lines.map Text.trim) number = outcomes file lines number := by
  rw [outcomes_eq, outcomes_eq, List.zipIdx_map, List.filterMap_map]
  exact List.filterMap_congr fun line _ => readLine_trim file line.1 line.2

lemma outcomes_append (file : String) (lines others : List (List Char)) (number : Nat) :
    outcomes file (lines ++ others) number =
      outcomes file lines number ++ outcomes file others (number + lines.length) := by
  rw [outcomes_eq, outcomes_eq, outcomes_eq, List.zipIdx_append, List.filterMap_append]

lemma outcomes_eq_nil_iff :
    outcomes file lines number = [] ↔ ∀ line ∈ lines, isRuleLine line = false := by
  rw [outcomes_eq, List.filterMap_eq_nil_iff]
  simp only [readLine_eq_none_iff, Prod.forall]
  constructor
  · intro h line hline
    obtain ⟨k, hmem⟩ := exists_mem_zipIdx number hline
    exact h line k hmem
  · exact fun h line k hmem => h line (List.fst_mem_of_mem_zipIdx hmem)

lemma readLine_shift (file : String) (line : List Char) {number moved : Nat}
    (h : Location.shift place count ⟨file, number⟩ = ⟨file, moved⟩) :
    readLine file (.ok line, moved) =
      (readLine file (.ok line, number)).map (shiftOutcome place count) := by
  rw [readLine, readLine]
  dsimp only
  split_ifs
  · cases readRule line with
    | error fault => simp [shiftOutcome, Diagnostic.shift, h]
    | ok rule => simp [shiftOutcome, Definition.shift, h]
  · rfl

/-- What comes of the lines in front stays where it is. -/
lemma outcomes_of_le (h : number + lines.length ≤ place + 1) :
    (outcomes file lines number).map (shiftOutcome place count) = outcomes file lines number := by
  rw [outcomes_eq, List.map_filterMap]
  refine List.filterMap_congr fun line hmem => (readLine_shift file line.1 ?_).symm
  have hlt := List.snd_lt_add_of_mem_zipIdx hmem
  exact Location.shift_of_le (by omega)

/-- What comes of the lines behind moves with them. -/
lemma outcomes_of_lt (h : place < number) :
    (outcomes file lines number).map (shiftOutcome place count) =
      outcomes file lines (number + count) := by
  rw [outcomes_eq, outcomes_eq, List.map_filterMap, Nat.add_comm number,
    ← List.map_snd_add_zipIdx_eq_zipIdx, List.filterMap_map]
  refine List.filterMap_congr fun line hmem => (readLine_shift file line.1 ?_).symm
  have hle := List.le_snd_of_mem_zipIdx hmem
  exact Location.shift_of_lt (by omega)

lemma outcomes_insert (hidle : ∀ line ∈ idle, isRuleLine line = false) :
    outcomes file (before ++ idle ++ after) 1 =
      (outcomes file (before ++ after) 1).map (shiftOutcome before.length idle.length) := by
  rw [outcomes_append, outcomes_append, outcomes_append, outcomes_eq_nil_iff.mpr hidle,
    List.append_nil, List.map_append, outcomes_of_le (by omega), outcomes_of_lt (by omega),
    List.length_append, Nat.add_assoc]

lemma faults_map_shift (place count : Nat)
    (found : List (Except (Diagnostic RuleFault) (String × Definition))) :
    faults (found.map (shiftOutcome place count)) =
      (faults found).map (Diagnostic.shift place count) := by
  rw [faults, faults, List.filterMap_map, List.map_filterMap]
  refine List.filterMap_congr fun outcome _ => ?_
  cases outcome <;> rfl

lemma results_map_shift (place count : Nat)
    (found : List (Except (Diagnostic RuleFault) (String × Definition))) :
    results (found.map (shiftOutcome place count)) =
      (results found).map fun entry => (entry.1, entry.2.shift place count) := by
  rw [results, results, List.filterMap_map, List.map_filterMap]
  refine List.filterMap_congr fun outcome _ => ?_
  cases outcome <;> rfl

lemma warnings_mapValues_shift (definitions : Table Definition) :
    warnings (definitions.mapValues (Definition.shift place count)) =
      (warnings definitions).map (Diagnostic.shift place count) := by
  have hundefined : ∀ d : Definition,
      undefinedIn (definitions.mapValues (Definition.shift place count)) (d.shift place count) =
        undefinedIn definitions d := by
    intro d
    simp only [undefinedIn, Table.isNone_get?_mapValues]
    rfl
  simp only [warnings, Table.mapValues, List.flatMap_map, List.map_flatMap, List.map_map]
  refine List.flatMap_congr fun entry _ => ?_
  exact congrArg (List.map _) (hundefined entry.2)

lemma ofDefinitions_mapValues_shift (definitions : Table Definition) :
    ofDefinitions (definitions.mapValues (Definition.shift place count)) =
      { ofDefinitions definitions with
        warnings := (ofDefinitions definitions).warnings.map (Diagnostic.shift place count) } := by
  have hrules : (definitions.mapValues (Definition.shift place count)).mapValues
      Definition.alternatives = definitions.mapValues Definition.alternatives :=
    Table.eq_of_entries (by simp [Table.mapValues, Definition.shift])
  rw [ofDefinitions, ofDefinitions, warnings_mapValues_shift, hrules]

/-- Lines that are no rule lines move what is read of the lines behind them. -/
lemma read_insert (hsource : (Text.lines source).map Text.trim = before ++ after)
    (hlonger : (Text.lines longer).map Text.trim = before ++ idle ++ after)
    (hidle : ∀ line ∈ idle, isRuleLine line = false) :
    read file longer = shiftReading before.length idle.length (read file source) := by
  have houtcomes : outcomes file (Text.lines longer) 1 =
      (outcomes file (Text.lines source) 1).map (shiftOutcome before.length idle.length) := by
    rw [← outcomes_trim, hlonger, outcomes_insert hidle, ← hsource, outcomes_trim]
  have hfaults := faults_map_shift before.length idle.length (outcomes file (Text.lines source) 1)
  have hresults := results_map_shift before.length idle.length (outcomes file (Text.lines source) 1)
  rw [← houtcomes] at hfaults hresults
  cases hread : read file source with
  | ok reading =>
    obtain ⟨hnone, hsome, rfl⟩ := read_eq_ok_iff.mp hread
    refine read_eq_ok_iff.mpr ⟨by rw [hfaults, hnone, List.map_nil], ?_, ?_⟩
    · rw [hresults]
      exact mt List.map_eq_nil_iff.mp hsome
    · rw [hresults, Table.ofList_map, ofDefinitions_mapValues_shift]
  | error errors =>
    refine read_eq_error_iff.mpr ?_
    obtain ⟨hne, rfl⟩ | ⟨hnone, hnothing, rfl⟩ := read_eq_error_iff.mp hread
    · exact .inl ⟨mt List.map_eq_nil_iff.mp hne, hfaults⟩
    · refine .inr ⟨by rw [hfaults, hnone, List.map_nil],
        by rw [hresults, hnothing, List.map_nil], ?_⟩
      rw [List.map_singleton, Diagnostic.shift, Location.shift_of_le (Nat.zero_le _)]

lemma isRuleLine_dropLastIf (line : List Char) :
    isRuleLine (Text.dropLastIf '\r' line) = isRuleLine line := by
  rw [Text.dropLastIf]
  split_ifs with hlast
  · obtain ⟨init, rfl⟩ := List.getLast?_eq_some_iff.mp (beq_iff_eq.mp hlast)
    rw [List.dropLast_concat, ← isRuleLine_trim (init ++ ['\r']), Text.trim_concat (by decide),
      isRuleLine_trim]
  · rfl

/-- A line that comes in behind a line end, or in front of the text, is one of its lines. -/
lemma lines_insert {before line : String} (after : String)
    (hbefore : before = "" ∨ ∃ init, before = init ++ "\n") (hline : '\n' ∉ line.toList) :
    Text.lines (before ++ after) = Text.lines before ++ Text.lines after ∧
      Text.lines (before ++ line ++ "\n" ++ after) =
        Text.lines before ++ [Text.dropLastIf '\r' line.toList] ++ Text.lines after := by
  have hends : before.toList = [] ∨ ∃ init, before.toList = init ++ ['\n'] := by
    rcases hbefore with rfl | ⟨init, rfl⟩
    · exact .inl rfl
    · exact .inr ⟨init.toList, by simp⟩
  have hended : line.toList ++ ['\n'] = [] ∨ ∃ init, line.toList ++ ['\n'] = init ++ ['\n'] :=
    .inr ⟨_, rfl⟩
  have hwhole : (before ++ line ++ "\n" ++ after).toList =
      before.toList ++ ((line.toList ++ ['\n']) ++ after.toList) := by simp
  simp only [Text.lines, hwhole, String.toList_append]
  rw [Text.cutLines_append hends, Text.cutLines_append hends, Text.cutLines_append hended,
    Text.cutLines_ended hline, List.append_assoc]
  exact ⟨rfl, rfl⟩

/-! ### Lines on their own -/

lemma lines_ofList (hfeed : '\n' ∉ line) (hne : line ≠ []) :
    Text.lines (String.ofList line) = [line] := by
  rw [Text.lines, String.toList_ofList, Text.cutLines_unended hfeed hne]

lemma ne_nil_of_isRuleLine (h : isRuleLine line = true) : line ≠ [] := by
  rintro rfl
  cases h

lemma IsFaulty.read_eq (h : IsFaulty line fault) (hfeed : '\n' ∉ line) :
    read file (String.ofList line) = .error [⟨⟨file, 1⟩, fault⟩] := by
  have hread : readLine file (.ok line, 1) = some (.error ⟨⟨file, 1⟩, fault⟩) :=
    readLine_eq_error_iff.mpr ⟨h.1, fault, h.2, rfl⟩
  refine read_eq_error_iff.mpr (.inl ⟨List.cons_ne_nil _ _, ?_⟩)
  rw [lines_ofList hfeed (ne_nil_of_isRuleLine h.1), outcomes_eq]
  simp [hread, faults]

lemma isFaulty_iff_read (hfeed : '\n' ∉ line) : IsFaulty line fault ↔
    read file (String.ofList line) = .error [⟨⟨file, 1⟩, fault⟩] := by
  refine ⟨fun h => h.read_eq hfeed, fun hread => ?_⟩
  obtain ⟨-, hfaults⟩ | ⟨-, -, hempty⟩ := read_eq_error_iff.mp hread
  swap
  · cases hempty
  have hmem : ⟨⟨file, 1⟩, fault⟩ ∈ faults (outcomes file (Text.lines (String.ofList line)) 1) :=
    hfaults ▸ List.mem_singleton_self _
  obtain ⟨found, k, hfound, hrule, stated, hstated, heq⟩ := mem_faults_iff.mp hmem
  obtain rfl : found = line := by
    have hline := List.fst_mem_of_mem_zipIdx hfound
    by_cases hne : line = []
    · rw [hne] at hline
      cases hline
    · rwa [lines_ofList hfeed hne, List.mem_singleton] at hline
  obtain rfl : fault = stated := congrArg Diagnostic.fault heq
  exact ⟨hrule, hstated⟩

/-! ### The errors of a text -/

lemma faults_pairwise (file : String) (lines : List (List Char)) (number : Nat) :
    ((faults (outcomes file lines number)).map fun d => d.location.line).Pairwise (· < ·) := by
  have hline : ∀ line : List Char × Nat, ∀ d,
      readLine file (.ok line.1, line.2) = some (.error d) → d.location.line = line.2 := by
    intro line d hread
    obtain ⟨-, fault, -, rfl⟩ := readLine_eq_error_iff.mp hread
    rfl
  have houtcomes : (outcomes file lines number).Pairwise fun outcome other =>
      ∀ d e, outcome = .error d → other = .error e → d.location.line < e.location.line := by
    rw [outcomes_eq]
    refine (zipIdx_pairwise lines number).filterMap _ ?_
    rintro line other hlt _ hd _ he d e rfl rfl
    rwa [hline line d hd, hline other e he]
  rw [List.pairwise_map, faults]
  refine houtcomes.filterMap _ fun outcome other hlt d hd e he => hlt d e ?_ ?_
  · cases outcome with
    | ok => cases hd
    | error => exact congrArg _ (Option.some.inj hd)
  · cases other with
    | ok => cases he
    | error => exact congrArg _ (Option.some.inj he)

lemma eq_nil_of_faults_results
    {found : List (Except (Diagnostic RuleFault) (String × Definition))}
    (hfaults : faults found = []) (hresults : results found = []) : found = [] := by
  cases found with
  | nil => rfl
  | cons outcome rest =>
    cases outcome with
    | error d => cases hfaults
    | ok entry => cases hresults

lemma exists_isFaulty_iff : (∃ line ∈ lines, ∃ fault, IsFaulty line fault) ↔
    faults (outcomes file lines number) ≠ [] := by
  constructor
  · rintro ⟨line, hline, fault, hrule, hfault⟩
    obtain ⟨k, hmem⟩ := exists_mem_zipIdx number hline
    exact List.ne_nil_of_mem (mem_faults_iff.mpr ⟨_, _, hmem, hrule, fault, hfault, rfl⟩)
  · intro hne
    obtain ⟨d, hd⟩ := List.exists_mem_of_ne_nil _ hne
    obtain ⟨line, k, hmem, hrule, fault, hfault, -⟩ := mem_faults_iff.mp hd
    exact ⟨line, List.fst_mem_of_mem_zipIdx hmem, fault, hrule, hfault⟩

lemma read_of_faulty (h : ∃ line ∈ Text.lines source, ∃ fault, IsFaulty line fault) :
    read file source = .error (faults (outcomes file (Text.lines source) 1)) :=
  read_eq_error_iff.mpr (.inl ⟨exists_isFaulty_iff.mp h, rfl⟩)

lemma read_of_none (h : ∀ line ∈ Text.lines source, isRuleLine line = false) :
    read file source = .error [⟨⟨file, 0⟩, .emptyGrammar⟩] := by
  refine read_eq_error_iff.mpr (.inr ?_)
  rw [outcomes_eq_nil_iff.mpr h]
  exact ⟨rfl, rfl, rfl⟩

lemma reportsLines_read (file source : String) : ReportsLines file source (read file source) where
  fails_iff := by
    constructor
    · rintro ⟨errors, hread⟩
      obtain ⟨hne, rfl⟩ | ⟨hfaults, hresults, -⟩ := read_eq_error_iff.mp hread
      · exact .inl (exists_isFaulty_iff.mpr hne)
      · exact .inr (outcomes_eq_nil_iff.mp (eq_nil_of_faults_results hfaults hresults))
    · rintro (h | h)
      · exact ⟨_, read_of_faulty h⟩
      · exact ⟨_, read_of_none h⟩
  isFaulty_iff line hline fault := isFaulty_iff_read (Text.isInfix_of_mem_cutLines hline).2
  of_faulty h := by
    refine ⟨_, read_of_faulty h, faults_pairwise .., fun d => mem_faults_iff.trans ?_⟩
    simp only [IsFaulty, exists_and_left, and_assoc]
  of_none := read_of_none

/-- The errors of a text are those of its rule lines, each at its own number and as the line alone
has it. When lines that are no rule lines come in or go, here named by the lines of the two texts up
to the blanks at their ends, the diagnostics behind them move by their number and nothing else
changes. In particular a line that is no rule line may be written in front of any line. -/
theorem read_reports_lines (file : String) :
    (∀ source, ReportsLines file source (read file source)) ∧
    (∀ source longer before idle after, (Text.lines source).map Text.trim = before ++ after →
      (Text.lines longer).map Text.trim = before ++ idle ++ after →
      (∀ line ∈ idle, isRuleLine line = false) →
        read file longer = shiftReading before.length idle.length (read file source)) ∧
    ∀ before line after, (before = "" ∨ ∃ init, before = init ++ "\n") → '\n' ∉ line.toList →
      isRuleLine line.toList = false →
        read file (before ++ line ++ "\n" ++ after) =
          shiftReading (Text.lines before).length 1 (read file (before ++ after)) := by
  refine ⟨reportsLines_read file, fun _ _ _ _ _ => read_insert, ?_⟩
  intro before line after hbefore hline hidle
  obtain ⟨hshort, hlong⟩ := lines_insert after hbefore hline
  have hsource : (Text.lines (before ++ after)).map Text.trim =
      (Text.lines before).map Text.trim ++ (Text.lines after).map Text.trim := by
    rw [hshort, List.map_append]
  have hlonger : (Text.lines (before ++ line ++ "\n" ++ after)).map Text.trim =
      (Text.lines before).map Text.trim ++ [Text.trim (Text.dropLastIf '\r' line.toList)] ++
        (Text.lines after).map Text.trim := by
    rw [hlong, List.map_append, List.map_append, List.map_singleton]
  have hline : isRuleLine (Text.trim (Text.dropLastIf '\r' line.toList)) = false := by
    rw [isRuleLine_trim, isRuleLine_dropLastIf, hidle]
  rw [read_insert hsource hlonger (List.forall_mem_singleton.mpr hline), List.length_map,
    List.length_singleton]

theorem spoilt_reports_lines :
    ((∃ line ∈ Text.lines "<S> := a\n\n<T> b\n; <\n<U> := <", ∃ fault, IsFaulty line fault) ∧
      ∃ errors, read "" "<S> := a\n\n<T> b\n; <\n<U> := <" = .error errors ∧
        (errors.map fun d => d.location.line).Pairwise (· < ·) ∧
        ∀ d, d ∈ errors ↔ ∃ line number,
          (line, number) ∈ (Text.lines "<S> := a\n\n<T> b\n; <\n<U> := <").zipIdx 1 ∧
            ∃ fault, IsFaulty line fault ∧ d = ⟨⟨"", number⟩, fault⟩) ∧
    ("<T> b".toList ∈ Text.lines "<T> b\r\n<S>" ∧
      (IsFaulty "<T> b".toList .missingDefines ↔
        read "" "<T> b" = .error [⟨⟨"", 1⟩, .missingDefines⟩])) ∧
    ((∀ line ∈ Text.lines " \n; c", isRuleLine line = false) ∧
      read "" " \n; c" = .error [⟨⟨"", 0⟩, .emptyGrammar⟩]) ∧
    -- the carriage return belongs to the line only as long as the line is not ended
    ((Text.lines "<S> := <A>\r").map Text.trim = ["<S> := <A>".toList] ++ [] ∧
      (Text.lines "<S> := <A>\r\n; c").map Text.trim =
        ["<S> := <A>".toList] ++ ["; c".toList] ++ [] ∧
      isRuleLine "; c".toList = false ∧
      read "" "<S> := <A>\r\n; c" = shiftReading 1 1 (read "" "<S> := <A>\r")) ∧
    ("<S> := a\n" = "<S> := a" ++ "\n" ∧ '\n' ∉ " ;".toList ∧ isRuleLine " ;".toList = false ∧
      read "" ("<S> := a\n" ++ " ;" ++ "\n" ++ "<T> b") =
        shiftReading (Text.lines "<S> := a\n").length 1 (read "" ("<S> := a\n" ++ "<T> b"))) := by
  have hfaulty : ∃ line ∈ Text.lines "<S> := a\n\n<T> b\n; <\n<U> := <", ∃ fault,
      IsFaulty line fault :=
    ⟨"<T> b".toList, by decide +kernel, .missingDefines, by decide +kernel, by decide +kernel⟩
  have hline : "<T> b".toList ∈ Text.lines "<T> b\r\n<S>" := by decide +kernel
  have hnone : ∀ line ∈ Text.lines " \n; c", isRuleLine line = false := by decide +kernel
  have hshort : (Text.lines "<S> := <A>\r").map Text.trim = ["<S> := <A>".toList] ++ [] := by
    decide +kernel
  have hlong : (Text.lines "<S> := <A>\r\n; c").map Text.trim =
      ["<S> := <A>".toList] ++ ["; c".toList] ++ [] := by decide +kernel
  have hcomment : isRuleLine "; c".toList = false := by decide +kernel
  have hfeed : '\n' ∉ " ;".toList := by decide
  have hblank : isRuleLine " ;".toList = false := by decide +kernel
  have hreports := (read_reports_lines "").1
  refine ⟨⟨hfaulty, (hreports _).of_faulty hfaulty⟩, ⟨hline, ?_⟩,
    ⟨hnone, (hreports _).of_none hnone⟩, ⟨hshort, hlong, hcomment, ?_⟩, rfl, hfeed, hblank, ?_⟩
  · exact (hreports _).isFaulty_iff _ hline .missingDefines
  · exact (read_reports_lines "").2.1 _ _ _ _ _ hshort hlong (by simpa using hcomment)
  · exact (read_reports_lines "").2.2 _ _ _ (.inr ⟨"<S> := a", rfl⟩) hfeed hblank

end RuleText

end GrammarTrace
