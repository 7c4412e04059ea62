import GrammarTrace.Proofs.RuleTexts
import GrammarTrace.RuleText.Token

/-!
# What comes of a rule line

`Yields` says what comes of a line by the way in which its `:=` and bars cut it: the fault that is
found first, or a rule. Reading a line gives just this (`RuleText.readRule_iff_yields`), and reading
its tokens gives the same. So a line never has the faults of tokens that no line has.
-/

namespace GrammarTrace.RuleText

/-- A text without the blanks at its ends. -/
def trimmed (text : List Char) : String := String.ofList (Text.trim text)

/-- Whether a text can be cut into symbols. -/
def IsScannable (text : String) : Prop := ∃ form, scan .run text = .ok form

/-- Whether a text is a single nonterminal. -/
def IsNonterminal (text : String) : Prop := (Symbol.nonterminal text).IsToken .run

/-- Whether a line is cut by its only `:=`, and what follows it is cut by the bars into pieces. -/
structure CutInto (line head : List Char) (pieces : List (List Char)) : Prop where
  line_eq : line = head ++ ':' :: '=' :: ['|'].intercalate pieces
  head : LacksDefines head
  body : LacksDefines (['|'].intercalate pieces)
  ne_nil : pieces ≠ []
  bar : ∀ piece ∈ pieces, '|' ∉ piece

/-- What comes of a line. The faults are in the order in which they are looked for: each of them
presupposes that there is none before it. -/
inductive Yields (line : List Char) : Except RuleFault Rule → Prop
  | noDefines (hline : LacksDefines line) : Yields line (.error .missingDefines)
  | furtherDefines {before between after : List Char}
      (hline : line = before ++ ':' :: '=' :: (between ++ ':' :: '=' :: after)) :
      Yields line (.error .unexpectedDefines)
  | barInHead {head : List Char} {pieces : List (List Char)} (hcut : CutInto line head pieces)
      (hbar : '|' ∈ head) : Yields line (.error .missingNonterminal)
  | unclosedHead {head : List Char} {pieces : List (List Char)} (hcut : CutInto line head pieces)
      (hbar : '|' ∉ head) (hscan : ¬IsScannable (trimmed head)) :
      Yields line (.error (.malformedNonterminal (trimmed head)))
  | otherHead {head : List Char} {pieces : List (List Char)} (hcut : CutInto line head pieces)
      (hbar : '|' ∉ head) (hscan : IsScannable (trimmed head))
      (hname : ¬IsNonterminal (trimmed head)) : Yields line (.error .missingNonterminal)
  | unclosedAlternative {head piece : List Char} {before after : List (List Char)}
      (hcut : CutInto line head (before ++ piece :: after)) (hbar : '|' ∉ head)
      (hname : IsNonterminal (trimmed head))
      (hbefore : ∀ text ∈ before, IsScannable (trimmed text))
      (hpiece : ¬IsScannable (trimmed piece)) :
      Yields line (.error (.malformedNonterminal (trimmed piece)))
  | rule {head : List Char} {pieces : List (List Char)} {rule : Rule}
      (hcut : CutInto line head pieces) (hbar : '|' ∉ head) (hname : IsNonterminal (trimmed head))
      (hrule : rule.name = trimmed head)
      (halternatives : rule.alternatives.map Production.text = pieces.map trimmed) :
      Yields line (.ok rule)

variable {line head text piece : List Char} {pieces before after : List (List Char)}
  {rule : Rule} {outcome : Except RuleFault Rule}

/-! ### The tokens of a line -/

namespace Token

lemma defines_not_mem_ofStretch (stretch : List Char) : defines ∉ ofStretch stretch := by
  intro h
  obtain h | ⟨tokens, htokens, h⟩ := exists_of_mem_intercalate h
  · simp at h
  · obtain ⟨piece, -, rfl⟩ := List.mem_map.mp htokens
    simp at h

/-- The bars of a stretch cut its tokens as they cut its text. -/
lemma splitOn_bar_ofStretch (stretch : List Char) : (ofStretch stretch).splitOn bar =
    (stretch.splitOn '|').map fun piece => [.plain (trimmed piece)] := by
  refine List.splitOn_intercalate bar ?_ (by simp [List.splitOn_ne_nil])
  intro tokens htokens
  obtain ⟨piece, -, rfl⟩ := List.mem_map.mp htokens
  simp

lemma ofStretch_ne_nil (stretch : List Char) : ofStretch stretch ≠ [] := by
  intro h
  have hpieces := splitOn_bar_ofStretch stretch
  rw [h, List.splitOn_nil] at hpieces
  have hempty : [] ∈ (stretch.splitOn '|').map fun piece => [plain (trimmed piece)] :=
    hpieces ▸ List.mem_singleton_self []
  simp at hempty

lemma splitOn_defines_ofLine (line : List Char) :
    (ofLine line).splitOn defines = (splitAtDefines line).map ofStretch := by
  refine List.splitOn_intercalate defines ?_ (by simp [splitAtDefines_ne_nil])
  intro tokens htokens
  obtain ⟨stretch, -, rfl⟩ := List.mem_map.mp htokens
  exact defines_not_mem_ofStretch stretch

/-- A line has at least one token. -/
lemma ofLine_ne_nil (line : List Char) : ofLine line ≠ [] := by
  intro h
  have hstretches := splitOn_defines_ofLine line
  rw [h, List.splitOn_nil] at hstretches
  have hempty : [] ∈ (splitAtDefines line).map ofStretch :=
    hstretches ▸ List.mem_singleton_self []
  obtain ⟨stretch, -, hstretch⟩ := List.mem_map.mp hempty
  exact ofStretch_ne_nil stretch hstretch

/-- A bar of a stretch is one of its tokens. -/
lemma bar_mem_ofStretch (h : '|' ∈ text) : bar ∈ ofStretch text := by
  have hpieces := splitOn_bar_ofStretch text
  by_contra hnot
  rw [List.splitOn_eq_singleton hnot] at hpieces
  have hlength : (text.splitOn '|').length = 1 := by simpa using (congrArg List.length hpieces).symm
  obtain ⟨only, honly⟩ := List.length_eq_one_iff.mp hlength
  have htext : ['|'].intercalate (text.splitOn '|') = text := List.intercalate_splitOn '|'
  rw [honly, List.intercalate_singleton] at htext
  have hmem : only ∈ text.splitOn '|' := honly ▸ List.mem_singleton_self only
  exact not_mem_of_mem_splitOn hmem (htext ▸ h)

lemma readHead_ofStretch (head : List Char) :
    readHead (ofStretch head) = RuleText.readHead head := by
  rw [RuleText.readHead]
  split_ifs with hbar
  · -- the bar is not the only token
    rw [readHead]
    · exact ofStretch_ne_nil head
    · intro text htext
      have hmem := bar_mem_ofStretch hbar
      rw [htext] at hmem
      simp at hmem
  · rw [ofStretch, List.splitOn_eq_singleton hbar]
    rfl

lemma mapM_readAlternative (body : List Char) :
    ((ofStretch body).splitOn bar).mapM readAlternative =
      (body.splitOn '|').mapM RuleText.readAlternative := by
  rw [splitOn_bar_ofStretch, List.mapM_map]
  rfl

/-- Reading the tokens of a line gives what reading the line gives. -/
lemma readRule_ofLine (line : List Char) : readRule (ofLine line) = RuleText.readRule line := by
  rw [readRule, if_neg (by simp [ofLine_ne_nil]), splitOn_defines_ofLine, RuleText.readRule]
  obtain _ | ⟨head, _ | ⟨body, _ | ⟨last, rest⟩⟩⟩ := splitAtDefines line
  · rfl
  · rfl
  · simp only [List.map_cons, List.map_nil, readHead_ofStretch, mapM_readAlternative]
  · rfl

end Token

/-! ### The parts of a line -/

lemma readHead_of_not_isScannable (hbar : '|' ∉ head) (hscan : ¬IsScannable (trimmed head)) :
    readHead head = .error (.malformedNonterminal (trimmed head)) := by
  rw [readHead, if_neg hbar]
  split
  · next name hok => exact absurd ⟨_, hok⟩ hscan
  · next form _ hok => exact absurd ⟨_, hok⟩ hscan
  · rfl

lemma readHead_of_not_isNonterminal (hbar : '|' ∉ head) (hscan : IsScannable (trimmed head))
    (hname : ¬IsNonterminal (trimmed head)) : readHead head = .error .missingNonterminal := by
  obtain ⟨form, hform⟩ := hscan
  cases hread : readHead head with
  | ok name =>
    obtain ⟨-, htrim, htoken⟩ := readHead_eq_ok_iff.mp hread
    rw [trimmed, htrim, String.ofList_toList] at hname
    exact absurd htoken hname
  | error fault =>
    rw [readHead, if_neg hbar] at hread
    split at hread
    · cases hread
    · exact hread.symm
    · next hfail => cases hform.symm.trans hfail

lemma readHead_of_isNonterminal (hbar : '|' ∉ head) (hname : IsNonterminal (trimmed head)) :
    readHead head = .ok (trimmed head) :=
  readHead_eq_ok_iff.mpr ⟨hbar, (String.toList_ofList ..).symm, hname⟩

lemma exists_readAlternative (h : IsScannable (trimmed text)) :
    ∃ p, readAlternative text = .ok p := by
  obtain ⟨runs, hruns⟩ := h
  exact ⟨⟨trimmed text, runs, hruns⟩, readAlternative_eq_ok_iff.mpr (String.toList_ofList ..)⟩

lemma readAlternative_of_not_isScannable (h : ¬IsScannable (trimmed text)) :
    readAlternative text = .error (.malformedNonterminal (trimmed text)) := by
  rw [readAlternative, Production.ofText]
  split
  · next runs hruns => exact absurd ⟨runs, hruns⟩ h
  · rfl

lemma exists_mapM_readAlternative (h : ∀ piece ∈ pieces, IsScannable (trimmed piece)) :
    ∃ alternatives, pieces.mapM readAlternative = .ok alternatives := by
  induction pieces with
  | nil => exact ⟨[], rfl⟩
  | cons piece pieces ih =>
    obtain ⟨hpiece, hpieces⟩ := List.forall_mem_cons.mp h
    obtain ⟨p, hp⟩ := exists_readAlternative hpiece
    obtain ⟨alternatives, halternatives⟩ := ih hpieces
    exact ⟨p :: alternatives, by rw [List.mapM_cons, hp, halternatives]; rfl⟩

/-- The first alternative that is malformed is the one that is reported. -/
lemma mapM_readAlternative_eq_error (hbefore : ∀ text ∈ before, IsScannable (trimmed text))
    (hpiece : ¬IsScannable (trimmed piece)) :
    (before ++ piece :: after).mapM readAlternative =
      .error (.malformedNonterminal (trimmed piece)) := by
  induction before with
  | nil =>
    rw [List.nil_append, List.mapM_cons, readAlternative_of_not_isScannable hpiece]
    rfl
  | cons text before ih =>
    obtain ⟨htext, hbefore⟩ := List.forall_mem_cons.mp hbefore
    obtain ⟨p, hp⟩ := exists_readAlternative htext
    rw [List.cons_append, List.mapM_cons, hp, ih hbefore]
    rfl

/-! ### Lines that are cut once -/

lemma CutInto.readRule_eq (h : CutInto line head pieces) : readRule line = (do
    let name ← readHead head
    let alternatives ← pieces.mapM readAlternative
    pure { name, alternatives }) := by
  rw [readRule, splitAtDefines_eq_pair_iff.mpr ⟨h.line_eq, h.head, h.body⟩]
  dsimp only
  rw [List.splitOn_intercalate '|' h.bar h.ne_nil]

/-- Every line without `:=`, with one of them and with more of them. -/
lemma cuts_of_line (line : List Char) : LacksDefines line ∨
    (∃ head pieces, CutInto line head pieces) ∨
    ∃ before between after, line = before ++ ':' :: '=' :: (between ++ ':' :: '=' :: after) := by
  have hline := intercalate_splitAtDefines line
  have hlacks : ∀ stretch ∈ splitAtDefines line, LacksDefines stretch :=
    fun _ => lacksDefines_of_mem_splitAtDefines
  match hsplit : splitAtDefines line with
  | [] => exact absurd hsplit (splitAtDefines_ne_nil line)
  | [only] =>
    rw [hsplit, List.intercalate_singleton] at hline
    exact .inl (hline ▸ hlacks only (by simp [hsplit]))
  | [head, body] =>
    have hbody : ['|'].intercalate (body.splitOn '|') = body := List.intercalate_splitOn '|'
    refine .inr (.inl ⟨head, body.splitOn '|', ?_, hlacks head (by simp [hsplit]), ?_,
      List.splitOn_ne_nil '|' body, fun _ => not_mem_of_mem_splitOn⟩)
    · rw [hbody]
      exact (splitAtDefines_eq_pair_iff.mp hsplit).1
    · exact hbody.symm ▸ hlacks body (by simp [hsplit])
  | before :: between :: last :: rest =>
    rw [hsplit, List.intercalate_cons_cons, List.intercalate_cons_cons] at hline
    exact .inr (.inr ⟨before, between, [':', '='].intercalate (last :: rest), by simp [← hline]⟩)

lemma CutInto.exists_yields (h : CutInto line head pieces) : ∃ outcome, Yields line outcome := by
  classical
  by_cases hbar : '|' ∈ head
  · exact ⟨_, .barInHead h hbar⟩
  by_cases hscan : IsScannable (trimmed head)
  swap
  · exact ⟨_, .unclosedHead h hbar hscan⟩
  by_cases hname : IsNonterminal (trimmed head)
  swap
  · exact ⟨_, .otherHead h hbar hscan hname⟩
  by_cases hall : ∀ piece ∈ pieces, IsScannable (trimmed piece)
  · obtain ⟨alternatives, halternatives⟩ := exists_mapM_readAlternative hall
    rw [mapM_readAlternative_eq_ok_iff] at halternatives
    refine ⟨.ok ⟨trimmed head, alternatives⟩, .rule h hbar hname rfl ?_⟩
    have htexts := congrArg (List.map String.ofList) halternatives
    simp only [List.map_map, Function.comp_def, String.ofList_toList] at htexts
    exact htexts
  · -- the first of the malformed ones
    obtain ⟨piece, hfound⟩ : ∃ piece,
        pieces.find? (fun piece => !decide (IsScannable (trimmed piece))) = some piece := by
      rw [← Option.isSome_iff_exists, List.find?_isSome]
      simpa using hall
    obtain ⟨hpiece, before, after, rfl, hbefore⟩ := List.find?_eq_some_iff_append.mp hfound
    exact ⟨_, .unclosedAlternative h hbar hname (by simpa using hbefore) (by simpa using hpiece)⟩

/-! ### What is read -/

lemma exists_yields (line : List Char) : ∃ outcome, Yields line outcome := by
  obtain hline | ⟨head, pieces, hcut⟩ | ⟨before, between, after, hline⟩ := cuts_of_line line
  · exact ⟨_, .noDefines hline⟩
  · exact hcut.exists_yields
  · exact ⟨_, .furtherDefines hline⟩

lemma readRule_of_furtherDefines {before between after : List Char}
    (hline : line = before ++ ':' :: '=' :: (between ++ ':' :: '=' :: after)) :
    readRule line = .error .unexpectedDefines := by
  obtain ⟨first, firsts, hfirst⟩ := List.exists_cons_of_ne_nil (splitAtDefines_ne_nil before)
  obtain ⟨second, seconds, hsecond⟩ := List.exists_cons_of_ne_nil (splitAtDefines_ne_nil between)
  obtain ⟨third, thirds, hthird⟩ := List.exists_cons_of_ne_nil (splitAtDefines_ne_nil after)
  have hlength : 3 ≤ (splitAtDefines line).length := by
    rw [hline, splitAtDefines_append, splitAtDefines_append, hfirst, hsecond, hthird]
    simp only [List.length_append, List.length_cons]
    omega
  rw [readRule]
  split
  · next hsplit => simp [hsplit] at hlength
  · next hsplit => simp [hsplit] at hlength
  · rfl

lemma Yields.readRule_eq (h : Yields line outcome) : readRule line = outcome := by
  cases h with
  | noDefines hline => rw [readRule, splitAtDefines_of_lacksDefines hline]
  | furtherDefines hline => exact readRule_of_furtherDefines hline
  | barInHead hcut hbar =>
    rw [hcut.readRule_eq, readHead, if_pos hbar]
    rfl
  | unclosedHead hcut hbar hscan =>
    rw [hcut.readRule_eq, readHead_of_not_isScannable hbar hscan]
    rfl
  | otherHead hcut hbar hscan hname =>
    rw [hcut.readRule_eq, readHead_of_not_isNonterminal hbar hscan hname]
    rfl
  | unclosedAlternative hcut hbar hname hbefore hpiece =>
    rw [hcut.readRule_eq, readHead_of_isNonterminal hbar hname,
      mapM_readAlternative_eq_error hbefore hpiece]
    rfl
  | @rule head pieces rule hcut hbar hname hrule halternatives =>
    have hpieces : pieces.mapM readAlternative = .ok rule.alternatives := by
      rw [mapM_readAlternative_eq_ok_iff]
      have htexts := congrArg (List.map String.toList) halternatives
      simpa [Function.comp_def, trimmed] using htexts
    rw [hcut.readRule_eq, readHead_of_isNonterminal hbar hname, hpieces, ← hrule]
    rfl

lemma readRule_eq_iff : readRule line = outcome ↔ Yields line outcome := by
  refine ⟨fun h => ?_, Yields.readRule_eq⟩
  obtain ⟨found, hfound⟩ := exists_yields line
  rwa [← h, hfound.readRule_eq]

/-! ### What is reported -/

/-- The diagnostics of a reading: the errors, or the warnings of a grammar. -/
def diagnostics : Except (List (Diagnostic RuleFault)) Reading → List (Diagnostic RuleFault)
  | .error errors => errors
  | .ok reading => reading.warnings

variable {file source : String} {lines : List (List Char)} {number : Nat}
  {d : Diagnostic RuleFault} {errors : List (Diagnostic RuleFault)}

lemma outcomes_eq (file : String) (lines : List (List Char)) (number : Nat) :
    outcomes file lines number =
      (lines.zipIdx number).filterMap fun line => readLine file (.ok line.1, line.2) := by
  rw [outcomes, List.zipIdx_map, List.filterMap_map]
  rfl

lemma readLine_eq_none_iff : readLine file (.ok line, number) = none ↔ isRuleLine line = false := by
  rw [readLine]
  dsimp only
  split_ifs with hline
  · cases readRule line <;> simp [hline]
  · simp [hline]

lemma readLine_eq_ok_iff {entry : String × Definition} :
    readLine file (.ok line, number) = some (.ok entry) ↔ isRuleLine line = true ∧
      readRule line = .ok ⟨entry.1, entry.2.alternatives⟩ ∧ entry.2.location = ⟨file, number⟩ := by
  obtain ⟨name, alternatives, location⟩ := entry
  rw [readLine]
  dsimp only
  split_ifs with hline
  · cases hrule : readRule line with
    | error fault => simp [hline]
    | ok rule =>
      obtain ⟨found, stated⟩ := rule
      simp [hline, eq_comm, and_assoc]
  · simp [hline]

lemma readLine_eq_error_iff : readLine file (.ok line, number) = some (.error d) ↔
    isRuleLine line = true ∧
      ∃ fault, readRule line = .error fault ∧ d = ⟨⟨file, number⟩, fault⟩ := by
  rw [readLine]
  dsimp only
  split_ifs with hline
  · cases hrule : readRule line with
    | error fault => simp [hline, eq_comm]
    | ok rule => simp
  · simp [hline]

/-- The errors among the outcomes of lines are those of the rule lines that state no rule. -/
lemma mem_faults_iff : d ∈ faults (outcomes file lines number) ↔
    ∃ line k, (line, k) ∈ lines.zipIdx number ∧ isRuleLine line = true ∧
      ∃ fault, readRule line = .error fault ∧ d = ⟨⟨file, k⟩, fault⟩ := by
  simp only [← readLine_eq_error_iff, faults, outcomes_eq, List.mem_filterMap, Prod.exists]
  constructor
  · rintro ⟨outcome, ⟨line, k, hmem, hread⟩, hd⟩
    cases outcome with
    | ok => cases hd
    | error => exact ⟨line, k, hmem, by rw [hread, Option.some.inj hd]⟩
  · rintro ⟨line, k, hmem, hread⟩
    exact ⟨.error d, ⟨line, k, hmem, hread⟩, rfl⟩

/-- The errors of a text are those of its lines, or that there is no rule. -/
lemma read_eq_error_iff : read file source = .error errors ↔
    (errors ≠ [] ∧ faults (outcomes file (Text.lines source) 1) = errors) ∨
    (faults (outcomes file (Text.lines source) 1) = [] ∧
      results (outcomes file (Text.lines source) 1) = [] ∧
      [⟨{ file }, .emptyGrammar⟩] = errors) := by
  simp only [read, readLines, outcomes]
  split
  · next hfaults hresults =>
    refine ⟨fun h => .inr ⟨hfaults, hresults, Except.error.inj h⟩, ?_⟩
    rintro (⟨hne, heq⟩ | ⟨-, -, heq⟩)
    · exact absurd (heq.symm.trans hfaults) hne
    · exact congrArg Except.error heq
  · next hfaults hresults =>
    refine ⟨(by cases ·), ?_⟩
    rintro (⟨hne, heq⟩ | ⟨-, hnone, -⟩)
    · exact absurd (heq.symm.trans hfaults) hne
    · exact absurd hnone hresults
  · next hfaults _ =>
    refine ⟨fun h => .inl ⟨Except.error.inj h ▸ hfaults, Except.error.inj h⟩, ?_⟩
    rintro (⟨-, heq⟩ | ⟨hnone, -, -⟩)
    · exact congrArg Except.error heq
    · exact absurd hnone hfaults

/-- Every diagnostic of a text is about a line, about the lack of rules or about a nonterminal
without a rule. -/
lemma fault_of_mem_diagnostics (h : d ∈ diagnostics (read file source)) :
    (∃ line, readRule line = .error d.fault) ∨ d.fault = .emptyGrammar ∨
      ∃ name, d.fault = .undefinedNonterminal name := by
  cases hread : read file source with
  | ok reading =>
    rw [hread] at h
    obtain ⟨-, -, rfl⟩ := read_eq_ok_iff.mp hread
    obtain ⟨entry, -, h⟩ := List.mem_flatMap.mp h
    obtain ⟨name, -, rfl⟩ := List.mem_map.mp h
    exact .inr (.inr ⟨name, rfl⟩)
  | error errors =>
    rw [hread] at h
    obtain ⟨-, rfl⟩ | ⟨-, -, rfl⟩ := read_eq_error_iff.mp hread
    · obtain ⟨line, k, -, -, fault, hfault, rfl⟩ := mem_faults_iff.mp h
      exact .inl ⟨line, hfault⟩
    · obtain rfl := List.mem_singleton.mp h
      exact .inr (.inl rfl)

/-- What is read from a line is what its `:=` and bars make it yield, whether the line is read at
once or by its tokens. No text is reported to have a row of tokens that no line has. -/
theorem readRule_iff_yields :
    (∀ line outcome, readRule line = outcome ↔ Yields line outcome) ∧
    (∀ line, Token.readRule (Token.ofLine line) = readRule line) ∧
    ∀ file source, ∀ d ∈ diagnostics (read file source),
      d.fault ≠ .unsplitAlternatives ∧ d.fault ≠ .unexpectedBlankLine := by
  refine ⟨fun line outcome => readRule_eq_iff, Token.readRule_ofLine, fun file source d hd => ?_⟩
  obtain ⟨line, hline⟩ | hfault | ⟨name, hfault⟩ := fault_of_mem_diagnostics hd
  · have hyields := readRule_eq_iff.mp hline
    generalize d.fault = fault at hyields ⊢
    cases hyields <;> exact ⟨nofun, nofun⟩
  · exact hfault ▸ ⟨nofun, nofun⟩
  · exact hfault ▸ ⟨nofun, nofun⟩

theorem unclosed_readRule_iff_yields :
    ⟨⟨"", 2⟩, .malformedNonterminal "a<b"⟩ ∈ diagnostics (read "" "<S> := a\n<T> := c | a<b | <") ∧
      RuleFault.malformedNonterminal "a<b" ≠ .unsplitAlternatives ∧
      RuleFault.malformedNonterminal "a<b" ≠ .unexpectedBlankLine := by
  have hmem : ⟨⟨"", 2⟩, .malformedNonterminal "a<b"⟩ ∈
      diagnostics (read "" "<S> := a\n<T> := c | a<b | <") := by decide +kernel
  exact ⟨hmem, readRule_iff_yields.2.2 _ _ _ hmem⟩

end GrammarTrace.RuleText
