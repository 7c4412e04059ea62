/-!
# Stacks of choices

A search that can come back to its choices keeps them on a stack. A choice is the state in which it
was made, its alternatives in order of preference and a cursor to the first one that is untried.
Resuming grants the alternative at the cursor of the youngest choice that still has one; the
exhausted choices above it are dropped and reported.
-/

namespace GrammarTrace

/-- A choice made during a search. -/
structure Choice (S A : Type) where
  /-- The state in which the choice was made. -/
  snapshot : S
  alternatives : List A
  /-- The step that made the choice. -/
  step : Nat
  /-- The first untried alternative; the one before it was taken when the choice was made. -/
  cursor : Nat := 1
deriving DecidableEq, Repr

namespace Choice

variable {S A : Type}

/-- Whether no alternative is left. -/
def isExhausted (choice : Choice S A) : Bool := choice.alternatives.length ≤ choice.cursor

/-- The choice with its cursor moved past one more alternative. -/
def advance (choice : Choice S A) : Choice S A := { choice with cursor := choice.cursor + 1 }

end Choice

/-- An untried alternative that is granted, with the choice that it belongs to. -/
structure Resumption (S A : Type) where
  choice : Choice S A
  untried : choice.cursor < choice.alternatives.length

namespace Resumption

variable {S A : Type}

/-- The number of the granted alternative. -/
def chosen (r : Resumption S A) : Nat := r.choice.cursor

/-- The granted alternative. -/
def alternative (r : Resumption S A) : A :=
  r.choice.alternatives.get ⟨r.choice.cursor, r.untried⟩

end Resumption

/-- Choices with the youngest one first. -/
abbrev ChoiceStack (S A : Type) := List (Choice S A)

/-- What comes of resuming a search. -/
structure Resumed (S A : Type) where
  /-- The choices that were dropped while older ones remained, youngest first. -/
  abandoned : List (Choice S A)
  resumption : Option (Resumption S A)
  stack : ChoiceStack S A

namespace ChoiceStack

variable {S A : Type}

/-- Go back to the youngest choice with an untried alternative and claim that alternative. -/
def resume : ChoiceStack S A → Resumed S A
  | [] => ⟨[], none, []⟩
  | choice :: older =>
    if h : choice.cursor < choice.alternatives.length then
      ⟨[], some ⟨choice, h⟩, choice.advance :: older⟩
    else
      let resumed := resume older
      if older.isEmpty then resumed
      else { resumed with abandoned := choice :: resumed.abandoned }

end ChoiceStack

end GrammarTrace
