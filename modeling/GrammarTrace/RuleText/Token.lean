import GrammarTrace.RuleText.Line

/-!
# Rule lines as tokens

A rule line can be taken for a row of texts with a mark between any two of them, `:=` or a bar. A
rule is then read off the tokens: they are cut at `:=`, and what follows it is cut at the bars.

Rows of tokens that no line has are faulty in two more ways: there may be no tokens at all, and an
alternative may be more than one text.
-/

namespace GrammarTrace.RuleText

/-- A piece of a rule line. -/
inductive Token where
  | defines
  | bar
  /-- What stands between two marks, without the blanks at its ends. -/
  | plain (text : String)
deriving DecidableEq, Repr

namespace Token

/-- The tokens of a stretch of a line that has no `:=`. -/
def ofStretch (stretch : List Char) : List Token :=
  [bar].intercalate <| (stretch.splitOn '|').map fun piece =>
    [.plain (String.ofList (Text.trim piece))]

/-- The tokens of a line. -/
def ofLine (line : List Char) : List Token :=
  [defines].intercalate ((splitAtDefines line).map ofStretch)

/-- The nonterminal that stands before `:=`. -/
def readHead : List Token → Except RuleFault String
  | [] => .error .unexpectedBlankLine
  | [.plain head] =>
    match scan .run head with
    | .ok [.nonterminal name] => .ok name
    | .ok _ => .error .missingNonterminal
    | .error _ => .error (.malformedNonterminal head)
  | _ => .error .missingNonterminal

/-- The production that a text states. -/
def readProduction (text : String) : Except RuleFault Production :=
  (Production.ofText text).mapError fun _ => .malformedNonterminal text

/-- The alternative that stands between two bars. -/
def readAlternative : List Token → Except RuleFault Production
  | [] => readProduction ""
  | [.plain text] => readProduction text
  | tokens => .error (if .defines ∈ tokens then .unexpectedDefines else .unsplitAlternatives)

/-- The rule that a row of tokens states. -/
def readRule (tokens : List Token) : Except RuleFault Rule :=
  if tokens.isEmpty then .error .unexpectedBlankLine
  else
    match tokens.splitOn .defines with
    | [head, body] => do
      let name ← readHead head
      let alternatives ← (body.splitOn .bar).mapM readAlternative
      pure { name, alternatives }
    | [_] => .error .missingDefines
    | _ => .error .unexpectedDefines

end Token

end GrammarTrace.RuleText
