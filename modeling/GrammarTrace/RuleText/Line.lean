import GrammarTrace.Grammar
import GrammarTrace.RuleText.Fault
import GrammarTrace.Text.Blank

/-!
# Rule lines

A rule line has the form `<Name> := alternative | alternative`. Blanks around the name and around
each alternative do not count, and an alternative may be empty. Blank lines and lines that begin
with a semicolon are no rule lines.

The faults of a line are looked for in this order: the number of `:=`, the part before it, the
alternatives from left to right.
-/

namespace GrammarTrace

/-- A rule: a nonterminal with its alternatives. -/
structure Rule where
  name : String
  alternatives : List Production
deriving DecidableEq, Repr

namespace RuleText

/-- Whether a line is meant as a rule. -/
def isRuleLine (line : List Char) : Bool :=
  match Text.trim line with
  | [] => false
  | c :: _ => c ≠ ';'

/-- The pieces of a line between occurrences of `:=`. -/
def splitAtDefines : List Char → List (List Char)
  | [] => [[]]
  | ':' :: '=' :: rest => [] :: splitAtDefines rest
  | c :: rest => (splitAtDefines rest).modifyHead (c :: ·)

/-- The nonterminal that a rule line defines. -/
def readHead (text : List Char) : Except RuleFault String :=
  let head := String.ofList (Text.trim text)
  if '|' ∈ text then .error .missingNonterminal
  else
    match scan .run head with
    | .ok [.nonterminal name] => .ok name
    | .ok _ => .error .missingNonterminal
    | .error _ => .error (.malformedNonterminal head)

/-- An alternative of a rule line. -/
def readAlternative (text : List Char) : Except RuleFault Production :=
  let alternative := String.ofList (Text.trim text)
  (Production.ofText alternative).mapError fun _ => .malformedNonterminal alternative

/-- The rule that a rule line states. -/
def readRule (line : List Char) : Except RuleFault Rule :=
  match splitAtDefines line with
  | [head, body] => do
    let name ← readHead head
    let alternatives ← (body.splitOn '|').mapM readAlternative
    pure { name, alternatives }
  | [_] => .error .missingDefines
  | _ => .error .unexpectedDefines

end RuleText

end GrammarTrace
