import GrammarTrace.Symbol.Scan

/-!
# Productions

A production is one alternative of a rule: a text together with its run-granular symbols. The
char-granular symbols are obtained by dividing the terminal runs.
-/

namespace GrammarTrace

/-- One alternative of a rule. -/
structure Production where
  text : String
  /-- The symbols of the text, each terminal a maximal run. -/
  runs : Form
  scan_text : scan .run text = .ok runs
deriving DecidableEq, Repr

namespace Production

/-- The production with a given text, unless the text has an unclosed bracket. -/
def ofText (text : String) : Except UnclosedBracket Production :=
  match h : scan .run text with
  | .ok runs => .ok ⟨text, runs, h⟩
  | .error e => .error e

/-- A symbol with terminal text divided into its characters. -/
def divideSymbol : Symbol → Form
  | .terminal text => text.toList.map fun c => .terminal (String.singleton c)
  | .nonterminal name => [.nonterminal name]

/-- The symbols of a production at a granularity. -/
def symbols (p : Production) : Granularity → Form
  | .run => p.runs
  | .char => p.runs.flatMap divideSymbol

/-- Whether a production derives only the empty text in one step. -/
def isEmpty (p : Production) : Bool := p.runs.isEmpty

/-- Whether no nonterminal occurs in a production. -/
def isTerminalOnly (p : Production) : Bool := p.runs.all fun symbol => !symbol.isNonterminal

/-- The names of the nonterminals that occur in a production, repetitions included. -/
def nonterminals (p : Production) : List String := p.runs.nonterminals

/-- The number of occurrences of nonterminals in a production. -/
def nonterminalCount (p : Production) : Nat := p.runs.countP Symbol.isNonterminal

end Production

end GrammarTrace
