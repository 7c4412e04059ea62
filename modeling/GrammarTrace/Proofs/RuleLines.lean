import GrammarTrace.Proofs.Lines
import GrammarTrace.Proofs.Scanning
import GrammarTrace.RuleText.Line

/-!
# What a rule line says

A line states a rule just if it is cut at a single `:=` into a bracketed name and alternatives
(`RuleText.readRule_eq_ok_iff`). So what is read from a line is written again in one
(`RuleText.isRule_of_readRule`), and a line in which a rule is written states this rule
(`RuleText.readRule_writeRule`).
-/

namespace GrammarTrace.RuleText

/-- Whether a text has no `:=`. -/
def LacksDefines (text : List Char) : Prop := ¬[':', '='] <:+: text

instance (text : List Char) : Decidable (LacksDefines text) :=
  inferInstanceAs (Decidable (¬[':', '='] <:+: text))

/-- Whether a text can stand before the `:=` of a line as the name of a rule: it is bracketed, with no
brackets, bars, line feeds and `:=` inside. -/
def IsName (name : String) : Prop :=
  ∃ inner : List Char, name = String.ofList ('<' :: inner ++ ['>']) ∧
    (∀ c ∈ inner, c ≠ '<' ∧ c ≠ '>' ∧ c ≠ '|' ∧ c ≠ '\n') ∧ LacksDefines inner

/-- Whether a text can stand in a line as an alternative: its ends are not blank, and nothing in it
would end it. -/
structure IsAlternative (text : List Char) : Prop where
  trimmed : Text.trim text = text
  bar : '|' ∉ text
  feed : '\n' ∉ text
  defines : LacksDefines text

/-- Whether a rule can be written in a line. -/
structure IsRule (rule : String × List Production) : Prop where
  name : IsName rule.1
  ne_nil : rule.2 ≠ []
  alternatives : ∀ p ∈ rule.2, IsAlternative p.text.toList

/-- A rule in a line. -/
def writeRule (rule : String × List Production) : String :=
  rule.1 ++ " := " ++ " | ".intercalate (rule.2.map Production.text)

variable {text line head body : List Char} {name : String} {p : Production}
  {alternatives : List Production} {rule : Rule} {c : Char}

/-! ### Texts without `:=` -/

lemma LacksDefines.of_isInfix (h : LacksDefines text) (hwithin : body <:+: text) :
    LacksDefines body := fun hdefines => h (hdefines.trans hwithin)

lemma lacksDefines_nil : LacksDefines [] := by simp [LacksDefines]

lemma lacksDefines_cons :
    LacksDefines (c :: text) ↔ ¬[':', '='] <+: c :: text ∧ LacksDefines text := by
  rw [LacksDefines, List.infix_cons_iff, not_or, LacksDefines]

/-- No `:=` comes about around a character that is not part of it. -/
lemma LacksDefines.append_cons (hhead : LacksDefines head) (hbody : LacksDefines body)
    (hc : c ∉ [':', '=']) : LacksDefines (head ++ c :: body) := by
  obtain ⟨hcolon, hequals⟩ : c ≠ ':' ∧ c ≠ '=' := by simpa using hc
  induction head with
  | nil =>
    refine lacksDefines_cons.mpr ⟨fun hstarts => ?_, hbody⟩
    exact hcolon (List.cons_prefix_cons.mp hstarts).1.symm
  | cons d head ih =>
    obtain ⟨hstart, hhead⟩ := lacksDefines_cons.mp hhead
    refine lacksDefines_cons.mpr ⟨fun hstarts => ?_, ih hhead⟩
    obtain ⟨rfl, hrest⟩ := List.cons_prefix_cons.mp hstarts
    cases head with
    | nil => exact hequals (List.cons_prefix_cons.mp hrest).1.symm
    | cons e head =>
      obtain ⟨rfl, -⟩ := List.cons_prefix_cons.mp hrest
      exact hstart (by simp)

lemma splitAtDefines_cons (h : ¬[':', '='] <+: c :: text) :
    splitAtDefines (c :: text) = (splitAtDefines text).modifyHead (c :: ·) := by
  rw [splitAtDefines]
  rintro rest rfl rfl
  exact h (by simp)

lemma splitAtDefines_ne_nil (text : List Char) : splitAtDefines text ≠ [] := by
  fun_induction splitAtDefines text <;> simp_all

lemma splitAtDefines_of_lacksDefines (h : LacksDefines text) : splitAtDefines text = [text] := by
  induction text with
  | nil => rfl
  | cons c text ih =>
    obtain ⟨hstart, htext⟩ := lacksDefines_cons.mp h
    rw [splitAtDefines_cons hstart, ih htext, List.modifyHead_cons]

/-- The pieces on both sides of a `:=`. -/
lemma splitAtDefines_append (head body : List Char) :
    splitAtDefines (head ++ ':' :: '=' :: body) = splitAtDefines head ++ splitAtDefines body := by
  fun_induction splitAtDefines head with
  | case1 => rfl
  | case2 rest ih => exact congrArg ([] :: ·) ih
  | case3 c rest hother ih =>
    have hgo : ¬[':', '='] <+: c :: (rest ++ ':' :: '=' :: body) := by
      intro hstarts
      obtain ⟨rfl, hrest⟩ := List.cons_prefix_cons.mp hstarts
      cases rest with
      | nil => simp at hrest
      | cons d rest =>
        obtain ⟨rfl, -⟩ := List.cons_prefix_cons.mp hrest
        exact hother _ rfl rfl
    obtain ⟨first, others, hsplit⟩ := List.exists_cons_of_ne_nil (splitAtDefines_ne_nil rest)
    rw [List.cons_append, splitAtDefines_cons hgo, ih, hsplit]
    rfl

lemma intercalate_splitAtDefines (text : List Char) :
    [':', '='].intercalate (splitAtDefines text) = text := by
  fun_induction splitAtDefines text with
  | case1 => rfl
  | case2 rest ih =>
    rw [List.intercalate_cons_of_ne_nil (splitAtDefines_ne_nil rest), ih]
    rfl
  | case3 c rest _ ih =>
    obtain ⟨first, others, hsplit⟩ := List.exists_cons_of_ne_nil (splitAtDefines_ne_nil rest)
    rw [hsplit] at ih ⊢
    rw [List.modifyHead_cons, List.intercalate_cons_cons_left, ih]

lemma lacksDefines_of_mem_splitAtDefines (h : body ∈ splitAtDefines text) : LacksDefines body := by
  fun_induction splitAtDefines text generalizing body with
  | case1 => exact List.mem_singleton.mp h ▸ lacksDefines_nil
  | case2 rest ih =>
    rcases List.mem_cons.mp h with rfl | h
    · exact lacksDefines_nil
    · exact ih h
  | case3 c rest hother ih =>
    obtain ⟨first, others, hsplit⟩ := List.exists_cons_of_ne_nil (splitAtDefines_ne_nil rest)
    have hfirst : first <+: rest := by
      rw [← intercalate_splitAtDefines rest, hsplit]
      exact isPrefix_intercalate
    rw [hsplit] at h ih
    rcases List.mem_cons.mp h with rfl | h
    · -- a `:=` at the start would have been cut out
      refine lacksDefines_cons.mpr ⟨fun hstarts => ?_, ih List.mem_cons_self⟩
      obtain ⟨rfl, later, rfl⟩ := List.cons_prefix_cons.mp hstarts
      obtain ⟨last, rfl⟩ := hfirst
      exact hother _ rfl rfl
    · exact ih (List.mem_cons_of_mem _ h)

lemma splitAtDefines_eq_pair_iff : splitAtDefines line = [head, body] ↔
    line = head ++ ':' :: '=' :: body ∧ LacksDefines head ∧ LacksDefines body := by
  constructor
  · intro h
    have hline := intercalate_splitAtDefines line
    rw [h] at hline
    have hpieces : ∀ piece ∈ [head, body], LacksDefines piece :=
      fun piece hpiece => lacksDefines_of_mem_splitAtDefines (h ▸ hpiece)
    exact ⟨by simpa using hline.symm, hpieces head (by simp), hpieces body (by simp)⟩
  · rintro ⟨rfl, hhead, hbody⟩
    rw [splitAtDefines_append, splitAtDefines_of_lacksDefines hhead,
      splitAtDefines_of_lacksDefines hbody, List.singleton_append]

/-! ### The parts of a line -/

lemma scan_of_isToken (h : (Symbol.nonterminal name).IsToken .run) :
    scan .run name = .ok [.nonterminal name] := by
  obtain ⟨inner, hinner, rfl⟩ := h
  have hscanned : Scanned .run ('<' :: inner ++ ['>'])
      [.nonterminal (String.ofList ('<' :: inner ++ ['>']))] := .name hinner .nil
  rw [scan, String.toList_ofList]
  exact hscanned.scanAt_eq 0

/-- The part before `:=` is a bracketed name. -/
lemma readHead_eq_ok_iff : readHead text = .ok name ↔
    '|' ∉ text ∧ Text.trim text = name.toList ∧ (Symbol.nonterminal name).IsToken .run := by
  rw [readHead]
  constructor
  · intro h
    split_ifs at h with hbar
    split at h
    · next found hscan =>
      obtain rfl : found = name := Except.ok.inj h
      have htext := text_of_scan hscan
      rw [Form.text_cons, Form.text_nil, Symbol.text_nonterminal, String.append_empty] at htext
      exact ⟨hbar, by rw [htext, String.toList_ofList],
        isToken_of_scan hscan List.mem_cons_self⟩
    · cases h
    · cases h
  · rintro ⟨hbar, htrim, htoken⟩
    rw [if_neg hbar, htrim, String.ofList_toList, scan_of_isToken htoken]

lemma ofText_eq_ok_iff {text : String} : Production.ofText text = .ok p ↔ p.text = text := by
  rw [Production.ofText]
  constructor
  · intro h
    split at h
    · exact Except.ok.inj h ▸ rfl
    · cases h
  · rintro rfl
    split
    · next runs hscan =>
      obtain rfl := Except.ok.inj (p.scan_text.symm.trans hscan)
      rfl
    · next hscan => cases p.scan_text.symm.trans hscan

lemma readAlternative_eq_ok_iff :
    readAlternative text = .ok p ↔ p.text.toList = Text.trim text := by
  have htext : p.text.toList = Text.trim text ↔ p.text = String.ofList (Text.trim text) := by
    rw [← String.toList_inj, String.toList_ofList]
  rw [htext, ← ofText_eq_ok_iff, readAlternative]
  cases Production.ofText (String.ofList (Text.trim text)) <;> simp [Except.mapError]

lemma bind_eq_ok_iff {ε α β : Type} {result : Except ε α} {f : α → Except ε β} {b : β} :
    (result >>= f) = .ok b ↔ ∃ a, result = .ok a ∧ f a = .ok b := by
  cases result with
  | error e => simp [bind, Except.bind]
  | ok a => simp [bind, Except.bind]

/-- The alternatives of a line are its trimmed pieces. -/
lemma mapM_readAlternative_eq_ok_iff {texts : List (List Char)} :
    texts.mapM readAlternative = .ok alternatives ↔
      alternatives.map (fun p => p.text.toList) = texts.map Text.trim := by
  induction texts generalizing alternatives with
  | nil =>
    rw [List.mapM_nil, List.map_nil, List.map_eq_nil_iff]
    exact ⟨fun h => (Except.ok.inj h).symm, fun h => h ▸ rfl⟩
  | cons text texts ih =>
    simp only [List.mapM_cons, bind_eq_ok_iff, readAlternative_eq_ok_iff, ih, List.map_cons]
    constructor
    · rintro ⟨p, hp, rest, hrest, h⟩
      obtain rfl := Except.ok.inj h
      rw [List.map_cons, hp, hrest]
    · intro h
      obtain ⟨p, rest, rfl, hp, hrest⟩ := List.map_eq_cons_iff.mp h
      exact ⟨p, hp, rest, hrest, rfl⟩

/-- A line states a rule just if a single `:=` cuts it into the name and the alternatives. -/
theorem readRule_eq_ok_iff : readRule line = .ok rule ↔
    ∃ head body, line = head ++ ':' :: '=' :: body ∧ LacksDefines head ∧ LacksDefines body ∧
      readHead head = .ok rule.name ∧
      (body.splitOn '|').mapM readAlternative = .ok rule.alternatives := by
  rw [readRule]
  constructor
  · intro h
    split at h
    · next head body hsplit =>
      obtain ⟨hline, hhead, hbody⟩ := splitAtDefines_eq_pair_iff.mp hsplit
      obtain ⟨name, hname, h⟩ := bind_eq_ok_iff.mp h
      obtain ⟨alternatives, halternatives, h⟩ := bind_eq_ok_iff.mp h
      obtain rfl := Except.ok.inj h
      exact ⟨head, body, hline, hhead, hbody, hname, halternatives⟩
    · cases h
    · cases h
  · rintro ⟨head, body, hline, hhead, hbody, hname, halternatives⟩
    rw [splitAtDefines_eq_pair_iff.mpr ⟨hline, hhead, hbody⟩]
    dsimp only
    rw [hname, halternatives]
    rfl

/-! ### Rules that are read -/

lemma isName_of_isToken (htoken : (Symbol.nonterminal name).IsToken .run)
    (hbar : '|' ∉ name.toList) (hfeed : '\n' ∉ name.toList) (hdefines : LacksDefines name.toList) :
    IsName name := by
  obtain ⟨inner, hinner, rfl⟩ := htoken
  rw [String.toList_ofList] at hbar hfeed hdefines
  have hwithin : inner <:+: '<' :: inner ++ ['>'] := ⟨['<'], ['>'], rfl⟩
  refine ⟨inner, rfl, fun c hc => ?_, hdefines.of_isInfix hwithin⟩
  obtain ⟨hopen, hclose⟩ : c ≠ '<' ∧ c ≠ '>' := by simpa [isNameChar] using hinner c hc
  exact ⟨hopen, hclose, fun heq => hbar (hwithin.subset (heq ▸ hc)),
    fun heq => hfeed (hwithin.subset (heq ▸ hc))⟩

lemma isAlternative_of_mem_splitOn {piece : List Char} (hfeed : '\n' ∉ body)
    (hbody : LacksDefines body) (h : piece ∈ body.splitOn '|') :
    IsAlternative (Text.trim piece) := by
  have hwithin : Text.trim piece <:+: body := Text.isInfix_trim.trans (isInfix_of_mem_splitOn h)
  exact ⟨Text.trim_trim piece,
    fun hmem => not_mem_of_mem_splitOn h (Text.isInfix_trim.subset hmem),
    fun hmem => hfeed (hwithin.subset hmem), hbody.of_isInfix hwithin⟩

/-- What is read from a line can be written in one. -/
theorem isRule_of_readRule (h : readRule line = .ok rule) (hfeed : '\n' ∉ line) :
    IsRule (rule.name, rule.alternatives) := by
  obtain ⟨head, body, rfl, hhead, hbody, hname, halternatives⟩ := readRule_eq_ok_iff.mp h
  obtain ⟨hbar, htrim, htoken⟩ := readHead_eq_ok_iff.mp hname
  rw [mapM_readAlternative_eq_ok_iff] at halternatives
  rw [List.mem_append, List.mem_cons, List.mem_cons, not_or, not_or, not_or] at hfeed
  refine ⟨?_, ?_, ?_⟩
  · have hwithin : rule.name.toList <:+: head := htrim ▸ Text.isInfix_trim
    exact isName_of_isToken htoken (fun hmem => hbar (hwithin.subset hmem))
      (fun hmem => hfeed.1 (hwithin.subset hmem)) (hhead.of_isInfix hwithin)
  · rintro (hnil : rule.alternatives = [])
    rw [hnil] at halternatives
    exact List.splitOn_ne_nil '|' body (List.map_eq_nil_iff.mp halternatives.symm)
  · intro p hp
    have htext : p.text.toList ∈ (body.splitOn '|').map Text.trim :=
      halternatives ▸ List.mem_map.mpr ⟨p, hp, rfl⟩
    obtain ⟨piece, hpiece, htext⟩ := List.mem_map.mp htext
    exact htext ▸ isAlternative_of_mem_splitOn hfeed.2.2.2 hbody hpiece

/-! ### Rules that are written -/

/-- What stands after the `:=` of a rule in a line. -/
def writeBody (alternatives : List Production) : List Char :=
  ' ' :: [' ', '|', ' '].intercalate (alternatives.map fun p => p.text.toList)

lemma writeBody_singleton (p : Production) : writeBody [p] = ' ' :: p.text.toList := by
  simp [writeBody]

lemma writeBody_cons_cons (p q : Production) (rest : List Production) :
    writeBody (p :: q :: rest) = (' ' :: p.text.toList ++ [' ']) ++ '|' :: writeBody (q :: rest) := by
  simp [writeBody, List.intercalate_cons_cons]

lemma toList_writeRule (rule : String × List Production) :
    (writeRule rule).toList = (rule.1.toList ++ [' ']) ++ ':' :: '=' :: writeBody rule.2 := by
  simp [writeRule, writeBody, Function.comp_def]

lemma IsName.isToken (h : IsName name) : (Symbol.nonterminal name).IsToken .run := by
  obtain ⟨inner, rfl, hinner, -⟩ := h
  refine ⟨inner, fun c hc => ?_, rfl⟩
  obtain ⟨hopen, hclose, -, -⟩ := hinner c hc
  simp [isNameChar, hopen, hclose]

lemma IsName.not_mem (h : IsName name) : '|' ∉ name.toList ∧ '\n' ∉ name.toList := by
  obtain ⟨inner, rfl, hinner, -⟩ := h
  have hbar : '|' ∉ inner := fun hmem => (hinner _ hmem).2.2.1 rfl
  have hfeed : '\n' ∉ inner := fun hmem => (hinner _ hmem).2.2.2 rfl
  simp [hbar, hfeed]

lemma IsName.trim_eq (h : IsName name) : Text.trim (name.toList ++ [' ']) = name.toList := by
  obtain ⟨inner, rfl, -, -⟩ := h
  rw [Text.trim_concat (by decide), String.toList_ofList, List.cons_append, Text.trim_eq,
    List.dropWhile_cons_of_neg (by decide), ← List.cons_append,
    List.rdropWhile_concat_neg _ _ _ (by decide)]

lemma IsName.lacksDefines (h : IsName name) : LacksDefines (name.toList ++ [' ']) := by
  obtain ⟨inner, rfl, -, hinner⟩ := h
  rw [String.toList_ofList]
  have hopened : LacksDefines ('<' :: inner) := lacksDefines_nil.append_cons hinner (by decide)
  have hclosed : LacksDefines ('<' :: inner ++ ['>']) :=
    hopened.append_cons lacksDefines_nil (by decide)
  exact hclosed.append_cons lacksDefines_nil (by decide)

/-- The alternatives are the pieces of what stands after `:=`. -/
lemma map_trim_splitOn_writeBody : ∀ {alternatives : List Production}, alternatives ≠ [] →
    (∀ p ∈ alternatives, IsAlternative p.text.toList) →
      ((writeBody alternatives).splitOn '|').map Text.trim =
        alternatives.map fun p => p.text.toList
  | [], hne, _ => absurd rfl hne
  | [p], _, h => by
    obtain ⟨htrim, hbar, -, -⟩ := h p List.mem_cons_self
    have hplain : '|' ∉ ' ' :: p.text.toList := by simp [hbar]
    rw [writeBody_singleton, List.splitOn_eq_singleton hplain, List.map_singleton,
      Text.trim_cons (by decide), htrim, List.map_singleton]
  | p :: q :: rest, _, h => by
    obtain ⟨hfirst, hrest⟩ := List.forall_mem_cons.mp h
    obtain ⟨htrim, hbar, -, -⟩ := hfirst
    have hplain : '|' ∉ ' ' :: p.text.toList ++ [' '] := by simp [hbar]
    rw [writeBody_cons_cons, List.splitOn_append_cons_self_of_not_mem hplain, List.map_cons,
      map_trim_splitOn_writeBody (List.cons_ne_nil _ _) hrest, Text.trim_concat (by decide),
      Text.trim_cons (by decide), htrim]
    rfl

lemma lacksDefines_writeBody : ∀ {alternatives : List Production},
    (∀ p ∈ alternatives, IsAlternative p.text.toList) → LacksDefines (writeBody alternatives)
  | [], _ => lacksDefines_nil.append_cons lacksDefines_nil (by decide)
  | [p], h => by
    rw [writeBody_singleton]
    exact lacksDefines_nil.append_cons (h p List.mem_cons_self).defines (by decide)
  | p :: q :: rest, h => by
    obtain ⟨hfirst, hrest⟩ := List.forall_mem_cons.mp h
    have hopened : LacksDefines (' ' :: p.text.toList) :=
      lacksDefines_nil.append_cons hfirst.defines (by decide)
    have hclosed : LacksDefines (' ' :: p.text.toList ++ [' ']) :=
      hopened.append_cons lacksDefines_nil (by decide)
    rw [writeBody_cons_cons]
    exact hclosed.append_cons (lacksDefines_writeBody hrest) (by decide)

lemma feed_not_mem_writeBody : ∀ {alternatives : List Production},
    (∀ p ∈ alternatives, IsAlternative p.text.toList) → '\n' ∉ writeBody alternatives
  | [], _ => by decide
  | [p], h => by simp [writeBody_singleton, (h p List.mem_cons_self).feed]
  | p :: q :: rest, h => by
    obtain ⟨hfirst, hrest⟩ := List.forall_mem_cons.mp h
    simp [writeBody_cons_cons, hfirst.feed, feed_not_mem_writeBody hrest]

/-- A line ends with the blank before an empty alternative or with a character of an alternative,
which is not blank. -/
lemma getLast?_writeBody_ne : ∀ {alternatives : List Production},
    (∀ p ∈ alternatives, IsAlternative p.text.toList) →
      (writeBody alternatives).getLast? ≠ some '\r'
  | [], _ => by decide
  | [p], h => by
    rw [writeBody_singleton, List.getLast?_cons]
    cases hlast : p.text.toList.getLast? with
    | none => decide
    | some c =>
      have hblank := Text.isBlank_of_getLast? (h p List.mem_cons_self).trimmed hlast
      rintro ⟨⟩
      exact absurd hblank (by decide)
  | p :: q :: rest, h => by
    rw [writeBody_cons_cons, List.append_cons, List.getLast?_append_of_ne_nil _ (by simp [writeBody])]
    exact getLast?_writeBody_ne (List.forall_mem_cons.mp h).2

/-- A line in which a rule is written states this rule. -/
theorem readRule_writeRule {rule : String × List Production} (h : IsRule rule) :
    readRule (writeRule rule).toList = .ok ⟨rule.1, rule.2⟩ := by
  obtain ⟨hname, hne, halternatives⟩ := h
  have hbar : '|' ∉ rule.1.toList ++ [' '] := by simp [hname.not_mem.1]
  exact readRule_eq_ok_iff.mpr ⟨_, _, toList_writeRule rule, hname.lacksDefines,
    lacksDefines_writeBody halternatives, readHead_eq_ok_iff.mpr ⟨hbar, hname.trim_eq, hname.isToken⟩,
    mapM_readAlternative_eq_ok_iff.mpr (map_trim_splitOn_writeBody hne halternatives).symm⟩

/-- The line of a rule is neither dropped nor changed when a text is cut into lines. -/
lemma survives_writeRule {rule : String × List Production} (h : IsRule rule) :
    Text.Survives '\n' '\r' (writeRule rule).toList := by
  rw [toList_writeRule]
  refine ⟨by simp, ?_, ?_⟩
  · simp [h.name.not_mem.2, feed_not_mem_writeBody h.alternatives]
  · rw [List.append_cons, List.append_cons, List.getLast?_append_of_ne_nil _ (by simp [writeBody])]
    exact getLast?_writeBody_ne h.alternatives

lemma isRuleLine_writeRule {rule : String × List Production} (h : IsRule rule) :
    isRuleLine (writeRule rule).toList = true := by
  obtain ⟨inner, hname, -⟩ := h.name
  have hline : (writeRule rule).toList =
      '<' :: (inner ++ '>' :: ' ' :: ':' :: '=' :: writeBody rule.2) := by
    simp [toList_writeRule, hname]
  obtain ⟨rest, hrest⟩ := Text.exists_trim_cons (show Text.isBlank '<' = false by decide)
    (inner ++ '>' :: ' ' :: ':' :: '=' :: writeBody rule.2)
  rw [isRuleLine, hline, hrest]
  rfl

end GrammarTrace.RuleText
