import GrammarTrace.Production
import GrammarTrace.Table

/-!
# Grammars

A grammar is a table of rules, each a name with its alternatives in order, and a start symbol. A
rule need not exist for every nonterminal that occurs, nor for the start symbol.
-/

namespace GrammarTrace

/-- A grammar. -/
structure Grammar where
  start : String
  rules : Table (List Production)

namespace Grammar

/-- The grammar of a table of rules; it starts at the first one. -/
def ofRules (rules : Table (List Production)) : Grammar :=
  ⟨rules.names.headD "", rules⟩

/-- The same rules with another start symbol. -/
def withStart (g : Grammar) (start : String) : Grammar := { g with start }

/-- The start symbol. -/
def startSymbol (g : Grammar) : Symbol := .nonterminal g.start

/-- The alternatives of a nonterminal, if it has a rule. -/
def alternatives? (g : Grammar) (name : String) : Option (List Production) := g.rules.get? name

/-- Whether a list of alternatives describes a class of plain texts, such as the digits. -/
def isClassBody (alternatives : List Production) : Bool :=
  !alternatives.isEmpty && alternatives.all Production.isTerminalOnly

/-- Whether a name is that of a lexical class: its rule has alternatives, all of plain text. -/
def isLexicalClass (g : Grammar) (name : String) : Bool := (g.alternatives? name).any isClassBody

end Grammar

end GrammarTrace
