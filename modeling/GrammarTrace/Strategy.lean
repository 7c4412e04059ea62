import GrammarTrace.Search.Derivation
import GrammarTrace.Search.Reduction

/-!
# Strategies

The two ways of deciding whether an input belongs to a grammar, with their names and the number of
steps after which they stop unless told otherwise.
-/

namespace GrammarTrace

/-- A way of deciding whether an input belongs to a grammar. -/
inductive Strategy where
  /-- Search for a leftmost derivation from the start symbol. -/
  | topDown
  /-- Search for a reduction of the input to the start symbol. -/
  | bottomUp
deriving DecidableEq, Repr, Inhabited

namespace Strategy

/-- The name of a strategy. -/
def name : Strategy → String
  | .topDown => "top-down"
  | .bottomUp => "bottom-up"

/-- The strategy with a name. -/
def ofName? (name : String) : Option Strategy :=
  [Strategy.topDown, .bottomUp].find? fun strategy => strategy.name == name

/-- The number of steps after which a run stops unless told otherwise. -/
def defaultLimit : Strategy → Nat
  | .topDown => 100
  | .bottomUp => 10000

/-- Decide whether an input belongs to a grammar, giving up when `limit` steps are recorded. -/
def run (strategy : Strategy) (g : Grammar) (input : String) (limit : Nat) : Trace :=
  match strategy with
  | .topDown => g.searchDerivation input limit
  | .bottomUp => g.searchReduction input limit

end Strategy

end GrammarTrace
