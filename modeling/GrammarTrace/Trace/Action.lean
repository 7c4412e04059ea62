/-!
# Actions of a match run

Every step of a match run records what was done: work on the sentential form, a return to an earlier
choice, or the reason for which the run ended. Each action has a fixed sentence.
-/

namespace GrammarTrace

/-- What a match run did to get from one step to the next. -/
inductive Action where
  /-- The symbols of the input before any reduction. -/
  | start
  /-- The leftmost nonterminal was replaced by one of its alternatives. -/
  | expand (nonterminal production : String)
  /-- A terminal was recognized at the front of the unread input. -/
  | consume (terminal : String)
  /-- A terminal was replaced by its lexical class. -/
  | normalize (terminal nonterminal : String)
  /-- An occurrence of a production was replaced by its nonterminal. -/
  | reduce (nonterminal production : String)
  /-- The next untried alternative of an earlier choice was taken. -/
  | retry (nonterminal production : String)
  /-- Every alternative of an earlier expansion has been tried. -/
  | abandonExpansion (nonterminal : String)
  /-- Every reduction of an earlier form has been tried. -/
  | abandonReduction (form : String)
  /-- The input belongs to the grammar. -/
  | success
  | undefinedNonterminal (nonterminal : String)
  /-- The input ended where a terminal was expected. -/
  | unexpectedEnd (expected : String)
  | mismatch (expected : String) (found : Char)
  /-- The derivation was finished before the input. -/
  | leftoverInput (remaining : String)
  | noReductions
  | alternativesExhausted
  /-- No reduction is left, but empty productions were passed over. -/
  | inconclusive
  /-- The input has a bracket without its partner, after `position` bytes. -/
  | malformedInput (position : Nat)
  | stepLimit (limit : Nat)
deriving DecidableEq, Repr, Inhabited

namespace Action

/-- The sentence of an action. -/
def message : Action → String
  | .start => "Start of parsing"
  | .expand nonterminal production => s!"Replace {nonterminal} with \"{production}\""
  | .consume terminal => s!"Recognized \"{terminal}\""
  | .normalize terminal nonterminal => s!"Replace terminal '{terminal}' with {nonterminal}"
  | .reduce nonterminal production => s!"Reduce \"{production}\" to {nonterminal}"
  | .retry nonterminal production => s!"Backtrack: try \"{production}\" for {nonterminal}"
  | .abandonExpansion nonterminal =>
    s!"Backtrack: every rule for {nonterminal} is exhausted, backtracking further"
  | .abandonReduction form =>
    s!"Backtrack: every reduction of \"{form}\" is exhausted, backtracking further"
  | .success => "Parsing finished, the string belongs to the grammar"
  | .undefinedNonterminal nonterminal =>
    s!"Error: nonterminal {nonterminal} is not defined in the grammar"
  | .unexpectedEnd expected => s!"Error: input ended while expecting \"{expected}\""
  | .mismatch expected found => s!"Error: expected \"{expected}\" but found \"{found}\""
  | .leftoverInput remaining => s!"Error: derivation finished with \"{remaining}\" left unread"
  | .noReductions => "Error: no reductions and nothing left to backtrack to"
  | .alternativesExhausted =>
    "Error: every alternative is exhausted, the string cannot be parsed"
  | .inconclusive =>
    "Stopped: no reduction left, but empty productions might still derive the string"
  | .malformedInput position =>
    s!"Error: unclosed `<` in the input at column {position + 1}"
  | .stepLimit limit => s!"Stopped after {limit} steps without a verdict"

end Action

end GrammarTrace
