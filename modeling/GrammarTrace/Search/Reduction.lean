import GrammarTrace.Grammar
import GrammarTrace.Search.Space

/-!
# Searching for a reduction to the start symbol

The position of the search is a form that derives the input. An occurrence of the symbols of a
nonempty production is replaced by the nonterminal of the production; the choices are ordered by
rule, then by alternative, then by position. Empty productions would occur between every two
symbols, so they reduce the empty form only, and a grammar that has any is never said to reject an
input. The goal is the start symbol alone.

Before the search, every terminal that some lexical class lists as a whole alternative is replaced
by the first such class, from left to right.
-/

namespace GrammarTrace

/-- A production of a rule with its symbols, one per character. -/
structure Pattern where
  nonterminal : String
  production : Production
  symbols : Form
deriving DecidableEq, Repr

/-- An occurrence of a production in a form. -/
structure Reduction where
  nonterminal : String
  production : Production
  span : Span
deriving DecidableEq, Repr

namespace Reduction

/-- Replace the occurrence in a form by the nonterminal. -/
def apply (form : Form) (r : Reduction) : Form :=
  form.take r.span.start ++ .nonterminal r.nonterminal :: form.drop r.span.stop

/-- A reduction as it is shown. -/
def candidate (r : Reduction) : Candidate where
  nonterminal := r.nonterminal
  production := r.production.text
  span := some r.span

end Reduction

namespace Form

/-- The positions at which a pattern occurs in a form that starts at a position. -/
def occurrencesFrom (pattern : Form) (position : Nat) : Form → List Nat
  | [] => []
  | symbol :: rest =>
    if pattern.isPrefixOf (symbol :: rest) then
      position :: occurrencesFrom pattern (position + 1) rest
    else
      occurrencesFrom pattern (position + 1) rest

end Form

namespace Pattern

/-- The occurrences of a pattern in a form, from left to right. -/
def reductions (form : Form) (pattern : Pattern) : List Reduction :=
  (Form.occurrencesFrom pattern.symbols 0 form).map fun start =>
    { nonterminal := pattern.nonterminal
      production := pattern.production
      span := ⟨start, start + pattern.symbols.length⟩ }

/-- The reduction of an empty form by an empty pattern. -/
def emptyReduction (pattern : Pattern) : Reduction where
  nonterminal := pattern.nonterminal
  production := pattern.production
  span := ⟨0, 0⟩

end Pattern

/-- The productions of a grammar, as a search for reductions uses them. -/
structure ReductionRules where
  start : String
  /-- The nonempty productions in declaration order. -/
  patterns : List Pattern
  /-- The empty productions in declaration order. -/
  empties : List Pattern

namespace ReductionRules

/-- The reductions of a form, in order of preference. -/
def reductions (rules : ReductionRules) (form : Form) : List Reduction :=
  if form.isEmpty then rules.empties.map Pattern.emptyReduction
  else rules.patterns.flatMap (Pattern.reductions form)

/-- What can be done with a form. -/
def prospect (rules : ReductionRules) (form : Form) : Prospect Form Reduction :=
  let found := rules.reductions form
  if form = [.nonterminal rules.start] then .goal found
  else
    match found with
    | [] => .deadEnd .noReductions
    | first :: others => .choice first others

/-- The step that ends a search with no reduction left: the input is rejected unless empty
productions may have been passed over. -/
def giveUp (rules : ReductionRules) (form : Form) (reason : Action) : Step :=
  if rules.empties.isEmpty then { action := reason, form, success := some false }
  else { action := .inconclusive, form }

/-- The forms as a search space. -/
def space (rules : ReductionRules) : SearchSpace Form Reduction where
  prospect := rules.prospect
  take := Reduction.apply
  candidate _ r := r.candidate
  chosen taken := .reduce taken.nonterminal taken.production
  abandoned form := .abandonReduction (Form.text form)
  step form action := { action, form }
  giveUp := rules.giveUp

end ReductionRules

namespace Grammar

/-- The productions of a grammar in declaration order, each with the name of its rule. -/
def productions (g : Grammar) : List (String × Production) :=
  g.rules.entries.flatMap fun rule => rule.2.map (rule.1, ·)

/-- The productions of a grammar, sorted into nonempty and empty ones. -/
def reductionRules (g : Grammar) : ReductionRules where
  start := g.start
  patterns := (g.productions.filter fun rule => !rule.2.isEmpty).map fun rule =>
    ⟨rule.1, rule.2, rule.2.symbols .char⟩
  empties := (g.productions.filter fun rule => rule.2.isEmpty).map fun rule =>
    ⟨rule.1, rule.2, []⟩

/-! ### Lexical classes -/

/-- The rules of the lexical classes. -/
def lexicalClasses (g : Grammar) : List (String × List Production) :=
  g.rules.entries.filter fun rule => isClassBody rule.2

/-- The first of some classes that has the text of a terminal as a whole alternative. -/
def classOf? (classes : List (String × List Production)) : Symbol → Option String
  | .nonterminal _ => none
  | .terminal text =>
    (classes.find? fun rule => rule.2.any fun p => p.text == text).map Prod.fst

/-- Replace terminals by their classes from left to right; `done` is what has been passed, in
reverse. Each replacement is a step, and none is made when the trace has reached the limit. -/
def normalizeFrom (classes : List (String × List Production)) (limit : Nat) (done : Form) :
    Form → Trace → Progress Form Reduction
  | [], trace => .running ⟨done.reverse, [], trace⟩
  | symbol :: rest, trace =>
    match classOf? classes symbol with
    | none => normalizeFrom classes limit (symbol :: done) rest trace
    | some name =>
      if limit ≤ trace.size then
        .ended (trace.push
          { action := .stepLimit limit, form := done.reverseAux (symbol :: rest) })
      else
        normalizeFrom classes limit (.nonterminal name :: done) rest (trace.push
          { action := .normalize symbol.text name
            form := done.reverseAux (.nonterminal name :: rest) })

/-- Record the symbols of an input, then replace its terminals by their classes. -/
def normalize (g : Grammar) (limit : Nat) (tokens : Form) : Progress Form Reduction :=
  normalizeFrom g.lexicalClasses limit [] tokens
    (Trace.empty.push { action := .start, form := tokens })

/-! ### The search -/

/-- Search for a reduction of an input to the start symbol until `limit` steps are recorded. -/
def searchReduction (g : Grammar) (input : String) (limit : Nat) : Trace :=
  match scan .char input with
  | .error e =>
    Trace.empty.push { action := .malformedInput e.position, form := [], success := some false }
  | .ok tokens =>
    match g.normalize limit tokens with
    | .ended trace => trace
    | .running state => g.reductionRules.space.run limit state

end Grammar

end GrammarTrace
