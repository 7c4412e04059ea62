import GrammarTrace.Grammar
import GrammarTrace.Search.Space

/-!
# Searching for a leftmost derivation

The position of the search is a sentential form and the input that is still to be read; what has
been read, followed by the form, is derived from the start symbol. A nonterminal in front is
replaced by one of its alternatives, in declaration order, and a terminal run in front is read off
the input. The goal is an empty form with nothing left to read.
-/

namespace GrammarTrace

/-- A leftmost derivation in progress. -/
structure Derivation where
  form : Form
  unread : List Char
deriving DecidableEq, Repr

namespace Derivation

/-- The text of the symbol in front. -/
def front (d : Derivation) : String := Form.text (d.form.take 1)

/-- Why a terminal run is not in front of the unread input. -/
def refusal (expected : String) : List Char → Action
  | [] => .unexpectedEnd expected
  | found :: _ => .mismatch expected found

/-- What can be done with the symbol in front. -/
def prospect (g : Grammar) : Derivation → Prospect Derivation Production
  | ⟨[], []⟩ => .goal []
  | ⟨[], c :: unread⟩ => .deadEnd (.leftoverInput (String.ofList (c :: unread)))
  | ⟨.nonterminal name :: _, _⟩ =>
    match g.alternatives? name with
    | none => .breakdown (.undefinedNonterminal name)
    | some [] => .deadEnd .alternativesExhausted
    | some (first :: others) => .choice first others
  | ⟨.terminal text :: rest, unread⟩ =>
    match text.toList.isPrefixOf? unread with
    | some later => .forced (.consume text) ⟨rest, later⟩
    | none => .deadEnd (refusal text unread)

/-- Replace the symbol in front by the runs of a production. -/
def expand (d : Derivation) (p : Production) : Derivation :=
  { d with form := p.runs ++ d.form.tail }

/-- The step that records an action; it shows the unread input. -/
def step (d : Derivation) (action : Action) : Step where
  action
  form := d.form
  remaining := some (String.ofList d.unread)

end Derivation

namespace Grammar

/-- The leftmost derivations of a grammar as a search space. -/
def derivations (g : Grammar) : SearchSpace Derivation Production where
  prospect := Derivation.prospect g
  take := Derivation.expand
  candidate d p := { nonterminal := d.front, production := p.text }
  chosen taken := .expand taken.nonterminal taken.production
  abandoned d := .abandonExpansion d.front
  step := Derivation.step
  giveUp d reason := { d.step reason with success := some false }

/-- The start of a leftmost derivation of an input. -/
def derivationOf (g : Grammar) (input : String) : Derivation := ⟨[g.startSymbol], input.toList⟩

/-- Search for a leftmost derivation of an input until `limit` steps are recorded. -/
def searchDerivation (g : Grammar) (input : String) (limit : Nat) : Trace :=
  g.derivations.run limit ⟨g.derivationOf input, [], .empty⟩

end Grammar

end GrammarTrace
