import GrammarTrace.Proofs.Encoding
import GrammarTrace.Proofs.LineReports

/-!
# Reading a file

A file is cut into lines before it is decoded. If it holds the encoding of a text, what is read is
what the text says. A line that is not text does not stop the reading: it is reported for the whole
file, among the other reports in the order of the lines, and counts as a comment otherwise
(`RuleText.ofFile_reports`).
-/

namespace GrammarTrace.RuleText

/-- The lines of contents, with a comment for every line that is not text. -/
def commentedLines (contents : ByteArray) : List (List Char) :=
  (Text.byteLines contents).map fun line => (Text.decode? line).getD [';']

/-- Whether some line of contents is not text. -/
def HasBadLine (contents : ByteArray) : Prop :=
  ∃ line ∈ Text.byteLines contents, Text.decode? line = none

/-- What is reported of the line with a number: that it is not text, or the error that is reported
of it in a text with comments for such lines. -/
inductive ReportedAt (file : String) (contents : ByteArray) (source : String) (number : Nat) :
    Diagnostic RuleFault → Prop where
  | notText {line : List UInt8} (hline : (line, number) ∈ (Text.byteLines contents).zipIdx 1)
      (hdecode : Text.decode? line = none) :
      ReportedAt file contents source number ⟨⟨file, 0⟩, .file .notText⟩
  | fault {errors : List (Diagnostic RuleFault)} {fault : RuleFault}
      (hread : read file source = .error errors) (hmem : ⟨⟨file, number⟩, fault⟩ ∈ errors)
      (hfault : fault ≠ .emptyGrammar) :
      ReportedAt file contents source number ⟨⟨file, number⟩, fault⟩

/-- What is read of contents, given a text with comments for the lines that are not text. -/
structure ReadsAsCommented (file : String) (contents : ByteArray) (source : String) : Prop where
  /-- If every line is text then the text is read. -/
  of_text : ¬HasBadLine contents → ofFile file (.ok contents) = read file source
  /-- Otherwise there are only errors, at most one for each line, in the order of the lines. -/
  of_bad : HasBadLine contents → ∃ reports : List (Nat × Diagnostic RuleFault),
    ofFile file (.ok contents) = .error (reports.map Prod.snd) ∧
      (reports.map Prod.fst).Pairwise (· < ·) ∧
      ∀ number d, (number, d) ∈ reports ↔ ReportedAt file contents source number d

variable {file source : String} {contents : ByteArray} {number : Nat} {d : Diagnostic RuleFault}
  {fault : RuleFault} {line : List UInt8}

/-! ### Errors of lines -/

lemma readRule_ne_emptyGrammar {line : List Char} (h : readRule line = .error fault) :
    fault ≠ .emptyGrammar := by
  rintro rfl
  cases readRule_eq_iff.mp h

/-- The errors of a text at its lines are the faults of these lines. -/
lemma exists_error_iff :
    (∃ errors, read file source = .error errors ∧ ⟨⟨file, number⟩, fault⟩ ∈ errors ∧
      fault ≠ .emptyGrammar) ↔
      ∃ line, (line, number) ∈ (Text.lines source).zipIdx 1 ∧ IsFaulty line fault := by
  constructor
  · rintro ⟨errors, hread, hmem, hfault⟩
    obtain ⟨-, rfl⟩ | ⟨-, -, rfl⟩ := read_eq_error_iff.mp hread
    · obtain ⟨line, k, hline, hrule, fault, hfault, heq⟩ := mem_faults_iff.mp hmem
      obtain ⟨hlocation, rfl⟩ := Diagnostic.mk.inj heq
      obtain ⟨-, rfl⟩ := Location.mk.inj hlocation
      exact ⟨line, hline, hrule, hfault⟩
    · obtain ⟨-, rfl⟩ := Diagnostic.mk.inj (List.mem_singleton.mp hmem)
      exact absurd rfl hfault
  · rintro ⟨line, hline, hrule, hfault⟩
    have hmem : ⟨⟨file, number⟩, fault⟩ ∈ faults (outcomes file (Text.lines source) 1) :=
      mem_faults_iff.mpr ⟨line, number, hline, hrule, fault, hfault, rfl⟩
    exact ⟨_, read_eq_error_iff.mpr (.inl ⟨List.ne_nil_of_mem hmem, rfl⟩), hmem,
      readRule_ne_emptyGrammar hfault⟩

/-! ### Lines that are decoded one by one -/

/-- A line as it is read. -/
def decodeLine (line : List UInt8) : Except FileFailure (List Char) :=
  match Text.decode? line with
  | none => .error .notText
  | some text => .ok text

/-- What is reported of a line with its number. -/
def report? (file : String) (line : List UInt8 × Nat) : Option (Nat × Diagnostic RuleFault) :=
  match readLine file (decodeLine line.1, line.2) with
  | some (.error d) => some (line.2, d)
  | _ => none

lemma ofFile_ok (file : String) (contents : ByteArray) : ofFile file (.ok contents) =
    readLines file ((Text.byteLines contents).map decodeLine) := rfl

lemma report?_eq_some_iff {place : Nat} : report? file (line, place) = some (number, d) ↔
    place = number ∧ readLine file (decodeLine line, place) = some (.error d) := by
  rw [report?]
  dsimp only
  split
  · next found hfound => simp [hfound]
  · next hnone =>
    refine ⟨nofun, ?_⟩
    rintro ⟨-, hread⟩
    exact absurd hread (hnone d)

lemma map_snd_reports (file : String) (lines : List (List UInt8)) :
    ((lines.zipIdx 1).filterMap (report? file)).map Prod.snd =
      faults (((lines.map decodeLine).zipIdx 1).filterMap (readLine file)) := by
  rw [List.zipIdx_map, List.filterMap_map, faults, List.filterMap_filterMap, List.map_filterMap]
  refine List.filterMap_congr fun line _ => ?_
  change (report? file line).map Prod.snd = (readLine file (decodeLine line.1, line.2)).bind _
  rw [report?]
  cases readLine file (decodeLine line.1, line.2) with
  | none => rfl
  | some outcome => cases outcome <;> rfl

lemma reports_pairwise (file : String) (lines : List (List UInt8)) :
    (((lines.zipIdx 1).filterMap (report? file)).map Prod.fst).Pairwise (· < ·) := by
  rw [List.pairwise_map]
  refine (zipIdx_pairwise lines 1).filterMap _ ?_
  rintro ⟨one, k⟩ ⟨other, l⟩ hlt ⟨number, d⟩ hone ⟨number', d'⟩ hother
  obtain ⟨rfl, -⟩ := report?_eq_some_iff.mp hone
  obtain ⟨rfl, -⟩ := report?_eq_some_iff.mp hother
  exact hlt

lemma mem_reports_iff {lines : List (List UInt8)} :
    (number, d) ∈ (lines.zipIdx 1).filterMap (report? file) ↔
      ∃ line, (line, number) ∈ lines.zipIdx 1 ∧
        readLine file (decodeLine line, number) = some (.error d) := by
  simp only [List.mem_filterMap, Prod.exists, report?_eq_some_iff]
  constructor
  · rintro ⟨line, _, hline, rfl, hread⟩
    exact ⟨line, hline, hread⟩
  · rintro ⟨line, hline, hread⟩
    exact ⟨line, number, hline, rfl, hread⟩

lemma readLines_of_faults {lines : List (Except FileFailure (List Char))}
    (h : faults ((lines.zipIdx 1).filterMap (readLine file)) ≠ []) :
    readLines file lines = .error (faults ((lines.zipIdx 1).filterMap (readLine file))) := by
  rw [readLines]
  split
  · next hnone _ => exact absurd hnone h
  · next hnone _ => exact absurd hnone h
  · rfl

/-! ### Contents -/

lemma decodeLine_of_none (h : Text.decode? line = none) : decodeLine line = .error .notText := by
  rw [decodeLine, h]

lemma decodeLine_of_some {text : List Char} (h : Text.decode? line = some text) :
    decodeLine line = .ok text := by
  rw [decodeLine, h]

lemma mem_zipIdx_commentedLines {text : List Char} :
    (text, number) ∈ (commentedLines contents).zipIdx 1 ↔
      ∃ line, (line, number) ∈ (Text.byteLines contents).zipIdx 1 ∧
        (Text.decode? line).getD [';'] = text := by
  simp only [commentedLines, List.zipIdx_map, List.mem_map, Prod.exists, Prod.map_apply,
    Prod.mk.injEq, id_eq]
  constructor
  · rintro ⟨line, _, hline, rfl, rfl⟩
    exact ⟨line, hline, rfl⟩
  · rintro ⟨line, hline, rfl⟩
    exact ⟨line, number, hline, rfl, rfl⟩

/-- A line is reported just if it is not text, or its text is faulty. -/
lemma reportedAt_iff (hsource : Text.lines source = commentedLines contents) :
    ReportedAt file contents source number d ↔
      ∃ line, (line, number) ∈ (Text.byteLines contents).zipIdx 1 ∧
        readLine file (decodeLine line, number) = some (.error d) := by
  constructor
  · rintro (⟨hline, hdecode⟩ | ⟨hread, hmem, hfault⟩)
    · exact ⟨_, hline, by rw [decodeLine_of_none hdecode]; rfl⟩
    · obtain ⟨text, htext, hrule, hfault⟩ := exists_error_iff.mp ⟨_, hread, hmem, hfault⟩
      obtain ⟨line, hline, rfl⟩ := mem_zipIdx_commentedLines.mp (hsource ▸ htext)
      cases hdecode : Text.decode? line with
      | none =>
        -- a comment has no fault
        rw [hdecode] at hrule
        cases hrule
      | some text =>
        rw [hdecode] at hrule hfault
        exact ⟨line, hline, decodeLine_of_some hdecode ▸
          readLine_eq_error_iff.mpr ⟨hrule, _, hfault, rfl⟩⟩
  · rintro ⟨line, hline, hread⟩
    cases hdecode : Text.decode? line with
    | none =>
      rw [decodeLine_of_none hdecode, readLine] at hread
      obtain rfl := Except.error.inj (Option.some.inj hread)
      exact .notText hline hdecode
    | some text =>
      rw [decodeLine_of_some hdecode] at hread
      obtain ⟨hrule, fault, hfault, rfl⟩ := readLine_eq_error_iff.mp hread
      have htext : (text, number) ∈ (Text.lines source).zipIdx 1 :=
        hsource ▸ mem_zipIdx_commentedLines.mpr ⟨line, hline, by rw [hdecode, Option.getD_some]⟩
      obtain ⟨errors, herrors, hmem, hne⟩ := exists_error_iff.mpr ⟨text, htext, hrule, hfault⟩
      exact .fault herrors hmem hne

/-- Contents without bad lines are the lines of a text. -/
lemma map_decodeLine (hgood : ¬HasBadLine contents)
    (hsource : Text.lines source = commentedLines contents) :
    (Text.byteLines contents).map decodeLine = (Text.lines source).map .ok := by
  rw [hsource, commentedLines, List.map_map]
  refine List.map_congr_left fun line hline => ?_
  cases hdecode : Text.decode? line with
  | none => exact absurd ⟨line, hline, hdecode⟩ hgood
  | some text => rw [decodeLine_of_some hdecode, Function.comp_apply, hdecode, Option.getD_some]

lemma readsAsCommented (file : String) (hsource : Text.lines source = commentedLines contents) :
    ReadsAsCommented file contents source where
  of_text hgood := by rw [ofFile_ok, map_decodeLine hgood hsource, read]
  of_bad := by
    rintro ⟨line, hmem, hdecode⟩
    obtain ⟨number, hline⟩ := exists_mem_zipIdx 1 hmem
    have hreport : (number, ⟨⟨file, 0⟩, .file .notText⟩) ∈
        ((Text.byteLines contents).zipIdx 1).filterMap (report? file) :=
      mem_reports_iff.mpr ((reportedAt_iff hsource).mp (.notText hline hdecode))
    refine ⟨_, ?_, reports_pairwise file _, fun number d =>
      mem_reports_iff.trans (reportedAt_iff hsource).symm⟩
    rw [map_snd_reports, ofFile_ok]
    refine readLines_of_faults ?_
    rw [← map_snd_reports]
    exact List.ne_nil_of_mem (List.mem_map_of_mem hreport)

/-- There is a text with comments for the lines that are not text. -/
lemma exists_commented (contents : ByteArray) :
    ∃ source, Text.lines source = commentedLines contents := by
  refine ⟨String.ofList
    ((commentedLines contents).flatMap fun line => line ++ ['\r'] ++ ['\n']), ?_⟩
  rw [Text.lines, String.toList_ofList]
  refine Text.cutLines_flatMap_ended (by decide) fun text htext => ?_
  obtain ⟨line, hline, rfl⟩ := List.mem_map.mp htext
  cases hdecode : Text.decode? line with
  | none => simp
  | some text =>
    rw [Option.getD_some]
    intro hfeed
    refine (Text.isInfix_of_mem_cutLines hline).2 ?_
    rw [← Text.decode?_eq_some_iff.mp hdecode]
    exact List.mem_flatMap.mpr ⟨'\n', hfeed, by decide⟩

lemma ofFile_toUTF8 (file source : String) :
    ofFile file (.ok source.toUTF8) = read file source := by
  have hdecode : ∀ text, Text.decode? (Text.encode text) = some text :=
    fun text => Text.decode?_eq_some_iff.mpr rfl
  have hlines : Text.lines source = commentedLines source.toUTF8 := by
    rw [commentedLines, Text.byteLines_toUTF8, List.map_map]
    simp [Function.comp_def, hdecode]
  refine (readsAsCommented file hlines).of_text ?_
  rintro ⟨line, hline, hnone⟩
  rw [Text.byteLines_toUTF8] at hline
  obtain ⟨text, -, rfl⟩ := List.mem_map.mp hline
  rw [hdecode] at hnone
  cases hnone

/-- A file that holds a text is read as the text. Lines that are not text are reported in their
order among the errors, and all other lines are read as if these were comments. -/
theorem ofFile_reports (file : String) :
    (∀ source : String, ofFile file (.ok source.toUTF8) = read file source) ∧
    ∀ contents : ByteArray,
      (∃ source, Text.lines source = commentedLines contents) ∧
      ∀ source, Text.lines source = commentedLines contents →
        ReadsAsCommented file contents source :=
  ⟨ofFile_toUTF8 file, fun contents =>
    ⟨exists_commented contents, fun _ hsource => readsAsCommented file hsource⟩⟩

/-- Contents with a line that is not text between a rule and a line without `:=`. -/
def damaged : ByteArray := "<S> := a\n".toUTF8 ++ ⟨#[0xff, 0x0a]⟩ ++ "<T> b".toUTF8

theorem damaged_ofFile_reports :
    Text.lines "<S> := a\n;\n<T> b" = commentedLines damaged ∧ HasBadLine damaged ∧
    ∃ reports : List (Nat × Diagnostic RuleFault),
      ofFile "rules" (.ok damaged) = .error (reports.map Prod.snd) ∧
      (reports.map Prod.fst).Pairwise (· < ·) ∧
      (2, ⟨⟨"rules", 0⟩, .file .notText⟩) ∈ reports ∧
      (3, ⟨⟨"rules", 3⟩, .missingDefines⟩) ∈ reports := by
  have hsource : Text.lines "<S> := a\n;\n<T> b" = commentedLines damaged := by decide +kernel
  have hbad : ([0xff], 2) ∈ (Text.byteLines damaged).zipIdx 1 := by decide +kernel
  have hdecode : Text.decode? [0xff] = none := by decide +kernel
  have hfaulty : IsFaulty "<T> b".toList .missingDefines :=
    ⟨by decide +kernel, by decide +kernel⟩
  have hdamaged : HasBadLine damaged := ⟨[0xff], List.fst_mem_of_mem_zipIdx hbad, hdecode⟩
  obtain ⟨reports, hread, hordered, hreports⟩ :=
    (((ofFile_reports "rules").2 damaged).2 _ hsource).of_bad hdamaged
  obtain ⟨errors, herrors, hmem, hne⟩ : ∃ errors,
      read "rules" "<S> := a\n;\n<T> b" = .error errors ∧
        ⟨⟨"rules", 3⟩, .missingDefines⟩ ∈ errors ∧ RuleFault.missingDefines ≠ .emptyGrammar :=
    exists_error_iff.mpr ⟨_, by decide +kernel, hfaulty⟩
  exact ⟨hsource, hdamaged, reports, hread, hordered,
    (hreports _ _).mpr (.notText hbad hdecode), (hreports _ _).mpr (.fault herrors hmem hne)⟩

end GrammarTrace.RuleText
