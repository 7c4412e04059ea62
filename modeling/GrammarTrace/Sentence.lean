import GrammarTrace.Grammar
import GrammarTrace.Random.WordStream

/-!
# Sentences of a grammar

A sentence is made by expanding the start symbol, alternatives being chosen at random as long as the
nesting of expansions is below a depth. From that depth on the first alternative with the fewest
nonterminals is taken, and beyond four times that depth there is no sentence. Depths are machine
words, so that four times a depth comes round to zero at a quarter of their number.
-/

namespace GrammarTrace

/-- Why no sentence was made. -/
inductive SentenceFault where
  | undefinedNonterminal (name : String)
  /-- A nonterminal has a rule without alternatives. -/
  | noAlternatives (name : String)
  /-- Expansions were nested deeper than a bound. -/
  | recursionLimit (depth : Nat)
deriving DecidableEq, Repr

namespace SentenceFault

/-- The sentence of a fault. -/
def message : SentenceFault → String
  | .undefinedNonterminal name => "No definition for nonterminal `" ++ name ++ "`"
  | .noAlternatives name => "Nonterminal `" ++ name ++ "` has no alternatives"
  | .recursionLimit depth =>
    "Generation did not terminate within " ++ toString depth ++ " nested expansions"

instance : ToString SentenceFault := ⟨message⟩

end SentenceFault

/-- A computation that chooses and can fail; what it has used up to choose stays used up. -/
abbrev Choosing (σ : Type) := ExceptT SentenceFault (StateM σ)

namespace Grammar

/-- The depth at which alternatives are chosen at random unless told otherwise. -/
def defaultDepth : Nat := 8

/-- The depth beyond which there is no sentence: the product, as machine words, of a depth and four.
-/
def hardLimit (maxDepth : Nat) : Nat := (UInt64.ofNat maxDepth * 4).toNat

variable {σ : Type}

/-- One of a nonempty list of alternatives, at random. -/
def pickAlternative (chooser : Chooser σ) (first : Production) (others : List Production) :
    Choosing σ Production := do
  let (i, state) := chooser.pick (first :: others).length (by simp) (← get)
  set state
  return (first :: others)[i]

/-- The first of a nonempty list of alternatives with the fewest nonterminals. -/
def simplestAlternative (first : Production) (others : List Production) : Production :=
  (first :: others).minOn Production.nonterminalCount (by simp)

/-- The alternative that replaces a nonterminal at a depth. -/
def alternativeAt (g : Grammar) (chooser : Chooser σ) (maxDepth depth : Nat) (name : String) :
    Choosing σ Production :=
  match g.alternatives? name with
  | none => throw (.undefinedNonterminal name)
  | some [] => throw (.noAlternatives name)
  | some (first :: others) =>
    if depth < maxDepth then pickAlternative chooser first others
    else return simplestAlternative first others

/-- Expand a nonterminal when `left` more expansions may be nested. -/
def expandWithin (g : Grammar) (chooser : Chooser σ) (maxDepth : Nat) :
    Nat → String → Choosing σ String
  | 0, _ => throw (.recursionLimit (hardLimit maxDepth))
  | left + 1, name => do
    let p ← g.alternativeAt chooser maxDepth (hardLimit maxDepth - left) name
    let pieces ← p.runs.mapM fun
      | .terminal text => pure text
      | .nonterminal inner => g.expandWithin chooser maxDepth left inner
    return String.join pieces

/-- A sentence of a grammar, and what is left to choose with. -/
def sentence (g : Grammar) (chooser : Chooser σ) (maxDepth : Nat) (state : σ) :
    Except SentenceFault String × σ :=
  (g.expandWithin chooser maxDepth (hardLimit maxDepth + 1) g.start).run state

/-- A number of sentences one after the other, up to the first one that cannot be made. -/
def sentences (g : Grammar) (chooser : Chooser σ) (maxDepth : Nat) :
    Nat → σ → List String × Option SentenceFault
  | 0, _ => ([], none)
  | count + 1, state =>
    match g.sentence chooser maxDepth state with
    | (.error fault, _) => ([], some fault)
    | (.ok text, rest) =>
      let (texts, fault) := g.sentences chooser maxDepth count rest
      (text :: texts, fault)

end Grammar

end GrammarTrace
