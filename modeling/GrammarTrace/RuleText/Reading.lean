import GrammarTrace.RuleText.Line
import GrammarTrace.Text.Lines

/-!
# Reading rule text

A text of rules is read line by line. Every line with a fault is reported, at its number; if there
is none, the rules make a grammar. A nonterminal that is defined again keeps its place and takes the
later alternatives. Nonterminals without a rule are reported as warnings, at the rule that uses
them.
-/

namespace GrammarTrace.RuleText

/-- The alternatives of a nonterminal, with the line that defines them. -/
structure Definition where
  alternatives : List Production
  location : Location
deriving DecidableEq, Repr

/-- A grammar with the warnings of its text. -/
structure Reading where
  grammar : Grammar
  warnings : List (Diagnostic RuleFault)

/-- Read a line with its number: nothing comes of a line that is no rule line. A line that could not
be read counts for its whole file. -/
def readLine (file : String) (line : Except FileFailure (List Char) × Nat) :
    Option (Except (Diagnostic RuleFault) (String × Definition)) :=
  match line with
  | (.error failure, _) => some (.error ⟨{ file }, .file failure⟩)
  | (.ok text, number) =>
    if isRuleLine text then
      let location : Location := ⟨file, number⟩
      match readRule text with
      | .error fault => some (.error ⟨location, fault⟩)
      | .ok rule => some (.ok (rule.name, ⟨rule.alternatives, location⟩))
    else none

/-- The nonterminals that a definition uses and a table lacks, each once. -/
def undefinedIn (definitions : Table Definition) (d : Definition) : List String :=
  (d.alternatives.flatMap Production.nonterminals).eraseDups.filter fun name =>
    (definitions.get? name).isNone

/-- The warnings of a table of definitions, in its order. -/
def warnings (definitions : Table Definition) : List (Diagnostic RuleFault) :=
  definitions.entries.flatMap fun entry =>
    (undefinedIn definitions entry.2).map fun name =>
      ⟨entry.2.location, .undefinedNonterminal name⟩

/-- The grammar of a table of definitions. -/
def ofDefinitions (definitions : Table Definition) : Reading where
  grammar := Grammar.ofRules (definitions.mapValues Definition.alternatives)
  warnings := warnings definitions

/-- The faults among the outcomes of reading lines. -/
def faults {α : Type} (outcomes : List (Except (Diagnostic RuleFault) α)) :
    List (Diagnostic RuleFault) :=
  outcomes.filterMap fun
    | .error d => some d
    | .ok _ => none

/-- The results among the outcomes of reading lines. -/
def results {α : Type} (outcomes : List (Except (Diagnostic RuleFault) α)) : List α :=
  outcomes.filterMap fun
    | .error _ => none
    | .ok a => some a

/-- Read the lines of a file. -/
def readLines (file : String) (lines : List (Except FileFailure (List Char))) :
    Except (List (Diagnostic RuleFault)) Reading :=
  let outcomes := (lines.zipIdx 1).filterMap (readLine file)
  match faults outcomes, results outcomes with
  | [], [] => .error [⟨{ file }, .emptyGrammar⟩]
  | [], rules => .ok (ofDefinitions (.ofList rules))
  | found, _ => .error found

/-- Read a text; the file name serves for locations. -/
def read (file source : String) : Except (List (Diagnostic RuleFault)) Reading :=
  readLines file ((Text.lines source).map .ok)

/-- Read the contents of a file, each line of which is decoded on its own. -/
def readBytes (file : String) (contents : ByteArray) :
    Except (List (Diagnostic RuleFault)) Reading :=
  readLines file <| (Text.byteLines contents).map fun line =>
    match Text.decode? line with
    | none => .error .notText
    | some text => .ok text

/-- Read what comes of opening a file. -/
def ofFile (file : String) (opened : Except FileFailure ByteArray) :
    Except (List (Diagnostic RuleFault)) Reading :=
  match opened with
  | .error failure => .error [⟨{ file }, .file failure⟩]
  | .ok contents => readBytes file contents

namespace Reading

/-- The grammar alone, if there is nothing to warn of. -/
def strict (r : Reading) : Except (List (Diagnostic RuleFault)) Grammar :=
  if r.warnings.isEmpty then .ok r.grammar else .error r.warnings

end Reading

end GrammarTrace.RuleText
