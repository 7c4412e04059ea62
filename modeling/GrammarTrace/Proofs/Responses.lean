import Mathlib.Data.List.Forall2
import GrammarTrace.Proofs.CommandLines
import GrammarTrace.Proofs.FileReading
import GrammarTrace.Session

/-!
# What a session answers

A session that cannot begin answers with the errors alone. Otherwise it answers for all of its
inputs, each of which is matched as if it were the only one, or for the sentences that it makes up
to the first failure (`Session.Answers`, `Session.respondWith_answers`). What it answers is said in
terms of its options, of the runs and of their reports, whichever way of choosing it is given.
-/

namespace GrammarTrace.Session

variable {σ : Type}

/-! ### What is written -/

/-- A text that consists of some lines, each of which is ended by a line feed. -/
inductive Prints : List String → String → Prop where
  | nil : Prints [] ""
  | cons {line output : String} {lines : List String} (h : Prints lines output) :
      Prints (line :: lines) (line ++ "\n" ++ output)

/-- How the run for an input is shown in the format of a session. -/
inductive Shows (o : Options) (input : String) (trace : Trace) : String → Prop where
  | listing (h : o.format = .text) : Shows o input trace (trace.listing input)
  | document (h : o.format = .json) : Shows o input trace (trace.document input o.strategy)

/-! ### What is done -/

/-- The start symbol of a session: the first one of the rules, or the one that is asked for, with
brackets or without. -/
inductive StartsAt (o : Options) (g : Grammar) : String → Prop where
  | first (h : o.start = none) : StartsAt o g g.start
  | bracketed {name : String} (h : o.start = some ("<" ++ name ++ ">")) :
      StartsAt o g ("<" ++ name ++ ">")
  | bare {name : String} (h : o.start = some name) (hbare : ∀ inner, name ≠ "<" ++ inner ++ ">") :
      StartsAt o g ("<" ++ name ++ ">")

/-- The run for an input. It stops after the number of steps that is asked for, or else after as
many as belong to the strategy. -/
inductive RunsTo (o : Options) (g : Grammar) (input : String) : Trace → Prop where
  | derivation (h : o.strategy = .topDown) :
      RunsTo o g input (g.searchDerivation input (o.maxSteps.getD 100))
  | reduction (h : o.strategy = .bottomUp) :
      RunsTo o g input (g.searchReduction input (o.maxSteps.getD 10000))

/-- What is shown of the run for an input. -/
def Reports (o : Options) (g : Grammar) (input output : String) : Prop :=
  ∃ trace, RunsTo o g input trace ∧ Shows o input trace output

/-- Whether the run for an input accepts it. -/
def Accepts (o : Options) (g : Grammar) (input : String) : Prop :=
  ∃ trace, RunsTo o g input trace ∧ trace.verdict = .accepted

/-- The errors for which rules are refused: those of reading them, or the warnings if these count as
errors. -/
inductive Refuses (o : Options) (opened : Except FileFailure ByteArray) :
    List (Diagnostic RuleFault) → Prop where
  | unread {errors : List (Diagnostic RuleFault)}
      (hread : RuleText.ofFile o.file opened = .error errors) : Refuses o opened errors
  | strict {reading : RuleText.Reading} (hread : RuleText.ofFile o.file opened = .ok reading)
      (hstrict : o.strict = true) (hwarnings : reading.warnings ≠ []) :
      Refuses o opened reading.warnings

/-- The grammar of rules that are not refused, with the start symbol of the session, and the
warnings. -/
inductive Provides (o : Options) (opened : Except FileFailure ByteArray) :
    Grammar → List (Diagnostic RuleFault) → Prop where
  | intro {reading : RuleText.Reading} {start : String}
      (hread : RuleText.ofFile o.file opened = .ok reading)
      (hwarnings : o.strict = true → reading.warnings = [])
      (hstart : StartsAt o reading.grammar start) :
      Provides o opened { reading.grammar with start } reading.warnings

/-- The lines of standard input, as bytes. -/
def HasByteLines (stdin : ByteArray) (lines : List (List UInt8)) : Prop :=
  Text.HasLines 0x0a 0x0d stdin.toList lines

/-- The inputs of a session: those of the command line or, if it has none, the texts that the lines
of standard input encode. -/
inductive HasInputs (o : Options) (stdin : ByteArray) : List String → Prop where
  | arguments (h : o.inputs ≠ []) : HasInputs o stdin o.inputs
  | lines {lines : List (List UInt8)} {texts : List String} (h : o.inputs = [])
      (hlines : HasByteLines stdin lines)
      (htexts : List.Forall₂ (fun text line => Text.encode text.toList = line) texts lines) :
      HasInputs o stdin texts

/-- Whether a line of standard input does not encode any text. -/
def IsGarbled (stdin : ByteArray) : Prop :=
  ∃ lines, HasByteLines stdin lines ∧
    ∃ line ∈ lines, ∀ text : String, Text.encode text.toList ≠ line

/-- The sentences that a number of successive attempts make, up to the first one that fails. -/
inductive Makes (g : Grammar) (chooser : Chooser σ) :
    σ → Nat → List String → Option SentenceFault → Prop where
  | done {state : σ} : Makes g chooser state 0 [] none
  | failed {state rest : σ} {count : Nat} {fault : SentenceFault}
      (h : g.sentence chooser 8 state = (.error fault, rest)) :
      Makes g chooser state (count + 1) [] (some fault)
  | made {state rest : σ} {count : Nat} {text : String} {texts : List String}
      {fault : Option SentenceFault} (h : g.sentence chooser 8 state = (.ok text, rest))
      (hrest : Makes g chooser rest count texts fault) :
      Makes g chooser state (count + 1) (text :: texts) fault

/-! ### Answers -/

/-- What a session answers with a grammar. -/
inductive AnswersWith (source : SeededChooser σ) (o : Options) (g : Grammar)
    (warnings : List (Diagnostic RuleFault)) (stdin : ByteArray) (r : Response) : Prop where
  | unreadable (hgenerate : o.generate = none) (hinputs : o.inputs = []) (hbad : IsGarbled stdin)
      (hcode : r.exitCode = 2) (houtput : r.output = "")
      (herrors : Prints (warnings.map Diagnostic.asWarning ++
        ["stream did not contain valid UTF-8"]) r.errors)
  | matched {inputs outputs : List String} (hgenerate : o.generate = none)
      (hinputs : HasInputs o stdin inputs)
      (hcode : (r.exitCode = 0 ∧ ∀ input ∈ inputs, Accepts o g input) ∨
        (r.exitCode = 1 ∧ ∃ input ∈ inputs, ¬Accepts o g input))
      (hreports : List.Forall₂ (Reports o g) inputs outputs)
      (houtput : r.output = String.join outputs)
      (herrors : Prints (warnings.map Diagnostic.asWarning) r.errors)
  | generated {count : Nat} {seed : UInt64} {texts : List String} {fault : Option SentenceFault}
      (hgenerate : o.generate = some count) (hseed : ∀ n ∈ o.seed, seed.toNat = n)
      (hmakes : Makes g source.toChooser (source.ofSeed seed) count texts fault)
      (hcode : r.exitCode = if fault = none then 0 else 1) (houtput : Prints texts r.output)
      (herrors : Prints (warnings.map Diagnostic.asWarning ++ fault.toList.map fun fault =>
        Diagnostic.asError ⟨{ file := o.file }, fault⟩) r.errors)

/-- What a session answers. -/
structure Answers (source : SeededChooser σ) (o : Options) (opened : Except FileFailure ByteArray)
    (stdin : ByteArray) (seed : Nat) (r : Response) : Prop where
  refused {errors : List (Diagnostic RuleFault)} : Refuses o opened errors →
    r.exitCode = 2 ∧ r.output = "" ∧ Prints (errors.map Diagnostic.asError) r.errors
  begun : (∀ errors, ¬Refuses o opened errors) →
    ∃ g warnings, Provides o opened g warnings ∧ AnswersWith source o g warnings stdin r
  garbled : (∀ errors, ¬Refuses o opened errors) → o.generate = none → o.inputs = [] →
    IsGarbled stdin → r.exitCode = 2 ∧ r.output = ""
  /-- Each input is matched as if it were the only one. -/
  separate {inputs : List String} : (∀ errors, ¬Refuses o opened errors) → o.generate = none →
    HasInputs o stdin inputs →
    r.output = String.join (inputs.map fun input =>
      (respondWith source { o with inputs := [input] } opened stdin seed).output) ∧
    (r.exitCode = 0 ↔ ∀ input ∈ inputs,
      (respondWith source { o with inputs := [input] } opened stdin seed).exitCode = 0)

variable {source : SeededChooser σ} {o : Options} {opened : Except FileFailure ByteArray}
  {stdin : ByteArray} {g : Grammar} {errors warnings : List (Diagnostic RuleFault)}
  {inputs lines others : List String} {loaded : Loaded} {seed : Nat} {input output more : String}
  {name : String} {trace : Trace}

/-! ### Lines and reports -/

lemma prints_asLines (lines : List String) : Prints lines (asLines lines) := by
  rw [asLines]
  induction lines with
  | nil => exact .nil
  | cons line lines ih =>
    rw [List.map_cons, String.join_cons]
    exact .cons ih

lemma Prints.append (h : Prints lines output) (hmore : Prints others more) :
    Prints (lines ++ others) (output ++ more) := by
  induction h with
  | nil => rwa [List.nil_append, String.empty_append]
  | cons _ ih =>
    rw [List.cons_append, String.append_assoc]
    exact .cons ih

lemma prints_singleton (line : String) : Prints [line] (line ++ "\n") := by
  have h : Prints [line] (line ++ "\n" ++ "") := .cons .nil
  rwa [String.append_empty] at h

lemma runsTo_iff : RunsTo o g input trace ↔ trace = o.strategy.run g input o.limit := by
  rw [Options.limit]
  constructor
  · rintro (h | h)
    · rw [h]
      rfl
    · rw [h]
      rfl
  · rintro rfl
    cases h : o.strategy with
    | topDown => exact .derivation h
    | bottomUp => exact .reduction h

lemma accepts_iff :
    Accepts o g input ↔ (o.strategy.run g input o.limit).verdict = .accepted := by
  simp only [Accepts, runsTo_iff, exists_eq_left]

lemma reports_report : Reports o g input (report o input (o.strategy.run g input o.limit)) := by
  refine ⟨_, runsTo_iff.mpr rfl, ?_⟩
  rw [report]
  cases h : o.format with
  | text => exact .listing h
  | json => exact .document h

/-! ### Rules -/

lemma Refuses.load (h : Refuses o opened errors) : load o opened = .error (stop errors) := by
  cases h with
  | unread hread => rw [Session.load, hread]
  | strict hread hstrict hwarnings =>
    rw [Session.load, hread]
    dsimp only
    rw [if_pos hstrict, RuleText.Reading.strict, if_neg (mt List.isEmpty_iff.mp hwarnings)]

lemma bracketed_iff : (name.toList.head? = some '<' ∧ name.toList.getLast? = some '>') ↔
    ∃ inner, name = "<" ++ inner ++ ">" := by
  constructor
  · rintro ⟨hfirst, hlast⟩
    obtain ⟨rest, hrest⟩ := List.head?_eq_some_iff.mp hfirst
    obtain ⟨init, hinit⟩ := List.getLast?_eq_some_iff.mp hlast
    cases init with
    | nil => cases hrest.symm.trans hinit
    | cons c init =>
      obtain ⟨rfl, -⟩ := List.cons.inj (hrest.symm.trans hinit)
      refine ⟨String.ofList init, String.toList_inj.mp ?_⟩
      simpa using hinit
  · rintro ⟨inner, rfl⟩
    have hinner : ("<" ++ inner ++ ">").toList = '<' :: inner.toList ++ ['>'] := by simp
    rw [hinner]
    exact ⟨rfl, List.getLast?_concat⟩

lemma exists_startsAt (o : Options) (g : Grammar) :
    ∃ start, StartsAt o g start ∧ restart o g = { g with start } := by
  rw [restart, Options.startSymbol]
  cases hstart : o.start with
  | none => exact ⟨_, .first hstart, rfl⟩
  | some name =>
    rw [Option.map_some]
    split_ifs with hbrackets
    · obtain ⟨inner, rfl⟩ := bracketed_iff.mp hbrackets
      exact ⟨_, .bracketed hstart, rfl⟩
    · rw [bracketed_iff, not_exists] at hbrackets
      exact ⟨_, .bare hstart hbrackets, rfl⟩

lemma exists_provides (h : ∀ errors, ¬Refuses o opened errors) :
    ∃ loaded warnings, load o opened = .ok loaded ∧
      Provides o opened loaded.grammar warnings ∧
      Prints (warnings.map Diagnostic.asWarning) loaded.warnings := by
  cases hread : RuleText.ofFile o.file opened with
  | error errors => exact absurd (.unread hread) (h errors)
  | ok reading =>
    have hwarnings : o.strict = true → reading.warnings = [] := by
      intro hstrict
      by_contra hne
      exact h _ (.strict hread hstrict hne)
    obtain ⟨start, hstart, hrestart⟩ := exists_startsAt o reading.grammar
    have hprovides := Provides.intro hread hwarnings hstart
    rw [← hrestart] at hprovides
    rw [load, hread]
    dsimp only
    split_ifs with hstrict
    · rw [RuleText.Reading.strict, if_pos (List.isEmpty_iff.mpr (hwarnings hstrict))]
      refine ⟨_, _, rfl, hprovides, ?_⟩
      rw [hwarnings hstrict]
      exact .nil
    · exact ⟨_, _, rfl, hprovides, prints_asLines _⟩

/-! ### Inputs -/

/-- A line of standard input as it is read. -/
def decodeInput (line : List UInt8) : Except FileFailure String :=
  match Text.decode? line with
  | none => .error .notText
  | some text => .ok (String.ofList text)

lemma decodeInput_eq_ok_iff {line : List UInt8} {text : String} :
    decodeInput line = .ok text ↔ Text.encode text.toList = line := by
  rw [← Text.decode?_eq_some_iff, decodeInput]
  split
  · next hnone => simp [hnone]
  · next chars hchars =>
    rw [hchars, Except.ok.injEq, Option.some.injEq]
    exact ⟨fun h => by rw [← h, String.toList_ofList], fun h => by rw [h, String.ofList_toList]⟩

lemma decodeInput_of_forall_ne {line : List UInt8}
    (h : ∀ text : String, Text.encode text.toList ≠ line) : decodeInput line = .error .notText := by
  rw [decodeInput]
  split
  · rfl
  · next chars hchars =>
    have hencode := Text.decode?_eq_some_iff.mp hchars
    exact absurd (by rwa [String.toList_ofList]) (h (String.ofList chars))

lemma mapM_decodeInput_eq_ok_iff {lines : List (List UInt8)} {texts : List String} :
    lines.mapM decodeInput = .ok texts ↔
      List.Forall₂ (fun text line => Text.encode text.toList = line) texts lines := by
  induction lines generalizing texts with
  | nil =>
    rw [List.mapM_nil, List.forall₂_nil_right_iff]
    exact ⟨fun h => (Except.ok.inj h).symm, fun h => h ▸ rfl⟩
  | cons line lines ih =>
    simp only [List.mapM_cons, RuleText.bind_eq_ok_iff, decodeInput_eq_ok_iff, ih]
    constructor
    · rintro ⟨text, htext, rest, hrest, ⟨⟩⟩
      exact .cons htext hrest
    · rintro (_ | ⟨htext, hrest⟩)
      exact ⟨_, htext, _, hrest, rfl⟩

/-- The lines are read, unless one of them is no text. -/
lemma mapM_decodeInput (lines : List (List UInt8)) :
    (∃ texts, lines.mapM decodeInput = .ok texts) ∨
      (∃ line ∈ lines, ∀ text : String, Text.encode text.toList ≠ line) ∧
        lines.mapM decodeInput = .error .notText := by
  induction lines with
  | nil => exact .inl ⟨[], rfl⟩
  | cons line lines ih =>
    rw [List.mapM_cons]
    by_cases htext : ∃ text : String, Text.encode text.toList = line
    · obtain ⟨text, htext⟩ := htext
      rw [decodeInput_eq_ok_iff.mpr htext]
      rcases ih with ⟨texts, htexts⟩ | ⟨⟨bad, hmem, hbad⟩, hfault⟩
      · exact .inl ⟨text :: texts, by rw [htexts]; rfl⟩
      · exact .inr ⟨⟨bad, List.mem_cons_of_mem _ hmem, hbad⟩, by rw [hfault]; rfl⟩
    · rw [not_exists] at htext
      rw [decodeInput_of_forall_ne htext]
      exact .inr ⟨⟨line, List.mem_cons_self, htext⟩, rfl⟩

lemma HasByteLines.eq {lines : List (List UInt8)} (h : HasByteLines stdin lines) :
    Text.byteLines stdin = lines :=
  Text.HasLines.cutLines_eq h (by decide)

lemma hasByteLines_byteLines (stdin : ByteArray) : HasByteLines stdin (Text.byteLines stdin) :=
  Text.hasLines_cutLines ..

lemma inputs_of_nil (h : o.inputs = []) :
    Session.inputs o stdin = (Text.byteLines stdin).mapM decodeInput := by
  rw [Session.inputs, h]
  rfl

lemma HasInputs.inputs_eq (h : HasInputs o stdin inputs) : Session.inputs o stdin = .ok inputs := by
  cases h with
  | arguments hne => rw [Session.inputs, if_neg (mt List.isEmpty_iff.mp hne)]
  | lines hnil hlines htexts =>
    rw [inputs_of_nil hnil, hlines.eq, mapM_decodeInput_eq_ok_iff.mpr htexts]

lemma HasInputs.not_isGarbled (h : HasInputs o stdin inputs) (hnil : o.inputs = []) :
    ¬IsGarbled stdin := by
  rintro ⟨lines, hlines, line, hmem, hbad⟩
  cases h with
  | arguments hne => exact hne hnil
  | lines _ hothers htexts =>
    rw [← hothers.eq, hlines.eq] at htexts
    obtain ⟨i, hi, rfl⟩ := List.getElem_of_mem hmem
    obtain ⟨hlength, hencode⟩ := List.forall₂_iff_get.mp htexts
    exact hbad _ (hencode i (hlength.symm ▸ hi) hi)

/-- Either the inputs are there, or a line that is needed is not text. -/
lemma hasInputs_or_garbled (o : Options) (stdin : ByteArray) :
    (∃ inputs, HasInputs o stdin inputs) ∨
      (o.inputs = [] ∧ IsGarbled stdin ∧ Session.inputs o stdin = .error .notText) := by
  by_cases hnil : o.inputs = []
  · have hlines := hasByteLines_byteLines stdin
    rcases mapM_decodeInput (Text.byteLines stdin) with ⟨texts, htexts⟩ | ⟨hbad, hfault⟩
    · exact .inl ⟨texts, .lines hnil hlines (mapM_decodeInput_eq_ok_iff.mp htexts)⟩
    · exact .inr ⟨hnil, ⟨_, hlines, hbad⟩, (inputs_of_nil hnil).trans hfault⟩
  · exact .inl ⟨_, .arguments hnil⟩

/-! ### Sentences -/

lemma makes_sentences (g : Grammar) (chooser : Chooser σ) (count : Nat) (state : σ) :
    Makes g chooser state count (g.sentences chooser Grammar.defaultDepth count state).1
      (g.sentences chooser Grammar.defaultDepth count state).2 := by
  induction count generalizing state with
  | zero => exact .done
  | succ count ih =>
    rw [Grammar.sentences]
    split
    · next h => exact .failed h
    · next h => exact .made h (ih _)

/-! ### Answers -/

lemma respondWith_of_load (h : load o opened = .ok loaded) :
    respondWith source o opened stdin seed = proceed source o loaded stdin seed := by
  rw [respondWith, h]

lemma HasInputs.proceed_eq (hgenerate : o.generate = none) (h : HasInputs o stdin inputs) :
    proceed source o loaded stdin seed = matchInputs o loaded inputs := by
  rw [proceed, hgenerate]
  dsimp only
  rw [h.inputs_eq]

lemma exitCode_matchInputs : (matchInputs o loaded inputs).exitCode =
    if ∀ input ∈ inputs,
      (o.strategy.run loaded.grammar input o.limit).verdict = .accepted then 0 else 1 := by
  simp [matchInputs]

lemma output_matchInputs : (matchInputs o loaded inputs).output = String.join (inputs.map
    fun input => report o input (o.strategy.run loaded.grammar input o.limit)) := by
  simp [matchInputs, Function.comp_def]

lemma answersWith_matchInputs (hgenerate : o.generate = none) (h : HasInputs o stdin inputs)
    (hwarnings : Prints (warnings.map Diagnostic.asWarning) loaded.warnings) :
    AnswersWith source o loaded.grammar warnings stdin (matchInputs o loaded inputs) := by
  refine .matched hgenerate h ?_ ?_ output_matchInputs hwarnings
  · simp only [exitCode_matchInputs, accepts_iff]
    split_ifs with hall
    · exact .inl ⟨rfl, hall⟩
    · exact .inr ⟨rfl, by simpa using hall⟩
  · rw [List.forall₂_map_right_iff, List.forall₂_same]
    exact fun input _ => reports_report

lemma answersWith_generate (hrange : o.InRange) {count : Nat}
    (hgenerate : o.generate = some count)
    (hwarnings : Prints (warnings.map Diagnostic.asWarning) loaded.warnings) :
    AnswersWith source o loaded.grammar warnings stdin
      (generate source o loaded count (o.seed.getD seed)) := by
  have hmakes := makes_sentences loaded.grammar source.toChooser count
    (source.ofSeed (UInt64.ofNat (o.seed.getD seed)))
  rw [generate]
  generalize loaded.grammar.sentences source.toChooser Grammar.defaultDepth count _ = made
    at hmakes ⊢
  have hseed : ∀ n ∈ o.seed, (UInt64.ofNat (o.seed.getD seed)).toNat = n := by
    intro n hn
    rw [Option.mem_def.mp hn, Option.getD_some]
    exact UInt64.toNat_ofNat_of_lt' (hrange.seed n hn)
  obtain ⟨texts, _ | fault⟩ := made
  · refine .generated hgenerate hseed hmakes rfl (prints_asLines texts) ?_
    rwa [Option.toList_none, List.map_nil, List.append_nil]
  · refine .generated hgenerate hseed hmakes rfl (prints_asLines texts) ?_
    dsimp only
    rw [Option.toList_some, List.map_singleton, String.append_assoc]
    exact hwarnings.append (prints_singleton _)

lemma answersWith_proceed (hrange : o.InRange) (stdin : ByteArray) (seed : Nat)
    (hwarnings : Prints (warnings.map Diagnostic.asWarning) loaded.warnings) :
    AnswersWith source o loaded.grammar warnings stdin (proceed source o loaded stdin seed) := by
  cases hgenerate : o.generate with
  | some count =>
    rw [proceed, hgenerate]
    exact answersWith_generate hrange hgenerate hwarnings
  | none =>
    rcases hasInputs_or_garbled o stdin with ⟨inputs, hinputs⟩ | ⟨hnil, hgarbled, hfault⟩
    · rw [hinputs.proceed_eq hgenerate]
      exact answersWith_matchInputs hgenerate hinputs hwarnings
    · rw [proceed, hgenerate]
      dsimp only
      rw [hfault]
      refine .unreadable hgenerate hnil hgarbled rfl rfl ?_
      dsimp only
      rw [String.append_assoc]
      exact hwarnings.append (prints_singleton _)

/-- A session with one input. -/
lemma respondWith_single (hload : load o opened = .ok loaded) (hgenerate : o.generate = none)
    (input : String) : respondWith source { o with inputs := [input] } opened stdin seed =
      matchInputs o loaded [input] := by
  have hinputs : HasInputs { o with inputs := [input] } stdin [input] :=
    .arguments (List.cons_ne_nil _ _)
  have hsame : load { o with inputs := [input] } opened = .ok loaded := hload
  exact (respondWith_of_load hsame).trans (hinputs.proceed_eq hgenerate)

/-- A session answers whatever options have their numbers in range. -/
theorem respondWith_answers (source : SeededChooser σ) (h : o.InRange)
    (opened : Except FileFailure ByteArray) (stdin : ByteArray) (seed : Nat) :
    Answers source o opened stdin seed (respondWith source o opened stdin seed) where
  refused := by
    intro errors hrefuses
    rw [respondWith, hrefuses.load]
    exact ⟨rfl, rfl, prints_asLines _⟩
  begun := by
    intro hbegun
    obtain ⟨loaded, warnings, hload, hprovides, hwarnings⟩ := exists_provides hbegun
    rw [respondWith_of_load hload]
    exact ⟨_, _, hprovides, answersWith_proceed h stdin seed hwarnings⟩
  garbled := by
    intro hbegun hgenerate hnil hgarbled
    obtain ⟨loaded, warnings, hload, -⟩ := exists_provides hbegun
    rcases hasInputs_or_garbled o stdin with ⟨inputs, hinputs⟩ | ⟨-, -, hfault⟩
    · exact absurd hgarbled (hinputs.not_isGarbled hnil)
    · rw [respondWith_of_load hload, proceed, hgenerate]
      dsimp only
      rw [hfault]
      exact ⟨rfl, rfl⟩
  separate := by
    intro inputs hbegun hgenerate hinputs
    obtain ⟨loaded, warnings, hload, -⟩ := exists_provides hbegun
    simp only [respondWith_single hload hgenerate, respondWith_of_load hload,
      hinputs.proceed_eq hgenerate, exitCode_matchInputs, output_matchInputs,
      List.forall_mem_singleton]
    simp

/-- Rules with a nonterminal that has no rule. -/
def rulesFile : Except FileFailure ByteArray := .ok "<T> := <X>\n<S> := a | b".toUTF8

/-- Options to match an input that is accepted and one that is not. -/
def matching : Options :=
  { file := "rules", inputs := ["a", "c"], strategy := .bottomUp, start := some "S" }

/-- Options to match the lines of standard input. -/
def listening : Options := { file := "rules", format := .json }

/-- Options to match an input if there are no warnings. -/
def cautious : Options := { file := "rules", inputs := ["a"], strict := true }

/-- Options to make sentences. -/
def making : Options :=
  { file := "rules", start := some "<S>", generate := some 2, seed := some 1 }

/-- Two lines, the second of which is not text. -/
def garbledInput : ByteArray := "a\n".toUTF8 ++ ⟨#[0xff, 0x0a]⟩

theorem rules_respondWith_answers :
    (matching.InRange ∧
      Answers WordStream.seededChooser matching rulesFile .empty 0
        (respond matching rulesFile .empty 0) ∧
      respond matching rulesFile .empty 0 =
        { exitCode := 1
          output := "== a ==\nStep 1: Start of parsing\n    form:  a\n" ++
            "Step 2: Replace terminal 'a' with <S>\n    form:  <S>\n" ++
            "Step 3: Parsing finished, the string belongs to the grammar\n    form:  <S>\n" ++
            "Result: accepted after 3 steps (0 backtracking)\n" ++
            "== c ==\nStep 1: Start of parsing\n    form:  c\n" ++
            "Step 2: Error: no reductions and nothing left to backtrack to\n    form:  c\n" ++
            "Result: rejected after 2 steps (0 backtracking)\n"
          errors := "\x1b[33;49;1m[rules:1] warning:\x1b[39;49;1m  " ++
            "Could not find definition for `<X>`\x1b[0m\n" }) ∧
    (listening.InRange ∧
      Answers WordStream.seededChooser listening rulesFile garbledInput 0
        (respond listening rulesFile garbledInput 0) ∧
      respond listening rulesFile garbledInput 0 =
        { exitCode := 2
          errors := "\x1b[33;49;1m[rules:1] warning:\x1b[39;49;1m  " ++
            "Could not find definition for `<X>`\x1b[0m\nstream did not contain valid UTF-8\n" }) ∧
    (cautious.InRange ∧
      Answers WordStream.seededChooser cautious rulesFile .empty 0
        (respond cautious rulesFile .empty 0) ∧
      respond cautious rulesFile .empty 0 =
        { exitCode := 2
          errors := "\x1b[31;49;1m[rules:1]\x1b[39;49;1m  " ++
            "Could not find definition for `<X>`\x1b[0m\n" }) ∧
    (making.InRange ∧
      Answers WordStream.seededChooser making rulesFile .empty 0
        (respond making rulesFile .empty 0) ∧
      respond making rulesFile .empty 0 =
        { exitCode := 0
          output := "b\na\n"
          errors := "\x1b[33;49;1m[rules:1] warning:\x1b[39;49;1m  " ++
            "Could not find definition for `<X>`\x1b[0m\n" }) := by
  have hmatching : matching.InRange := CommandLine.inRange_of_read
    (show CommandLine.read ["rules", "a", "-mbottom-up", "--start=S", "c"] = .ok matching by
      decide +kernel)
  have hlistening : listening.InRange := CommandLine.inRange_of_read
    (show CommandLine.read ["--format=json", "rules"] = .ok listening by decide +kernel)
  have hcautious : cautious.InRange := CommandLine.inRange_of_read
    (show CommandLine.read ["rules", "a", "--strict"] = .ok cautious by decide +kernel)
  have hmaking : making.InRange := CommandLine.inRange_of_read
    (show CommandLine.read ["rules", "-s<S>", "-n2", "--seed", "1"] = .ok making by decide +kernel)
  refine ⟨⟨hmatching, ?_, ?_⟩, ⟨hlistening, ?_, ?_⟩, ⟨hcautious, ?_, ?_⟩, ⟨hmaking, ?_, ?_⟩⟩
  · exact respondWith_answers _ hmatching _ _ _
  · decide +kernel
  · exact respondWith_answers _ hlistening _ _ _
  · decide +kernel
  · exact respondWith_answers _ hcautious _ _ _
  · decide +kernel
  · exact respondWith_answers _ hmaking _ _ _
  · decide +kernel

end GrammarTrace.Session
