/-!
# Streams of random words

A random source is an endless sequence of words of 32 bits that is read from the front. To choose
among `n` things a word `w` is drawn and `w * n` is divided by `2 ^ 32`: the quotient is the choice.
A word is drawn again if the remainder is not below `n * 2 ^ k`, the largest number of this form
that fits into a word; every choice is then made by `2 ^ k` words.
-/

namespace GrammarTrace

/-- A way of choosing one of several things, with a state that it uses up. -/
structure Chooser (σ : Type) where
  pick : (n : Nat) → 0 < n → σ → Fin n × σ

/-- A way of choosing that can be begun from a number. -/
structure SeededChooser (σ : Type) extends Chooser σ where
  ofSeed : UInt64 → σ

/-- A sequence of words, read from the front. -/
structure WordStream where
  word : Nat → UInt32
  /-- Every word that occurs infinitely often occurs among this many words in succession. -/
  horizon : Nat
  /-- The number of words drawn so far. -/
  drawn : Nat := 0

namespace WordStream

/-- The given words, then zeros. -/
def ofList (words : List UInt32) : WordStream where
  word i := words.getD i 0
  horizon := words.length + 1

/-- The word in front, and what follows it. -/
def next (s : WordStream) : UInt32 × WordStream :=
  (s.word s.drawn, { s with drawn := s.drawn + 1 })

/-- The bound of the remainders with which a word is accepted for a choice among `n` things: `n`
shifted to the upper end of a word. -/
def acceptanceBound (n : Nat) : Nat := n <<< (31 - n.log2)

theorem quotient_lt (w : UInt32) {n : Nat} (h : 0 < n) : w.toNat * n / UInt32.size < n := by
  rw [Nat.div_lt_iff_lt_mul (by decide), Nat.mul_comm]
  exact Nat.mul_lt_mul_of_pos_left w.toNat_lt_size h

/-- Draw words until one is accepted, but not more than a number of them. -/
def pickWithin (n : Nat) (h : 0 < n) : Nat → WordStream → Fin n × WordStream
  | 0, s => (⟨0, h⟩, s)
  | tries + 1, s =>
    let (w, rest) := s.next
    if w.toNat * n % UInt32.size < acceptanceBound n then
      (⟨w.toNat * n / UInt32.size, quotient_lt w h⟩, rest)
    else pickWithin n h tries rest

/-- The choice among `n` things that a stream makes. -/
def pick (n : Nat) (h : 0 < n) (s : WordStream) : Fin n × WordStream := pickWithin n h s.horizon s

/-- Choosing by drawing words. -/
def chooser : Chooser WordStream := ⟨pick⟩

end WordStream

end GrammarTrace
