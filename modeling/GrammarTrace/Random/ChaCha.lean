import GrammarTrace.Random.WordStream

/-!
# The ChaCha key stream

A block of sixteen words is the sum of an initial state and the state after six double rounds. The
initial state holds four constants, a key of eight words, a counter of two words and two zeros; the
stream is the sequence of the blocks of the counters from zero.

A key is made from a seed by a linear congruential generator whose states are permuted before they
are given out.
-/

namespace GrammarTrace.ChaCha

/-- A state or block of the key stream. -/
abbrev Block := Vector UInt32 16

/-- A word with its bits rotated to the left. -/
def rotateLeft (w : UInt32) (amount : UInt32) : UInt32 := w <<< amount ||| w >>> (32 - amount)

/-- A word with its bits rotated to the right. -/
def rotateRight (w : UInt32) (amount : UInt32) : UInt32 := w >>> amount ||| w <<< (32 - amount)

/-- Mix four words of a state. -/
def quarterRound (a b c d : Fin 16) (s : Block) : Block :=
  let mix (x y z : Fin 16) (amount : UInt32) (s : Block) : Block :=
    let s := s.set x (s[x] + s[y])
    s.set z (rotateLeft (s[z] ^^^ s[x]) amount)
  mix c d b 7 (mix a b d 8 (mix c d b 12 (mix a b d 16 s)))

/-- Mix the columns of a state, then its diagonals. -/
def doubleRound (s : Block) : Block :=
  let s := quarterRound 3 7 11 15 (quarterRound 2 6 10 14 (quarterRound 1 5 9 13
    (quarterRound 0 4 8 12 s)))
  quarterRound 3 4 9 14 (quarterRound 2 7 8 13 (quarterRound 1 6 11 12 (quarterRound 0 5 10 15 s)))

/-- The state from which a block is made. -/
def initialState (key : Vector UInt32 8) (counter : UInt64) : Block :=
  let constants : Vector UInt32 4 := #v[0x61707865, 0x3320646e, 0x79622d32, 0x6b206574]
  let position : Vector UInt32 4 := #v[counter.toUInt32, (counter >>> 32).toUInt32, 0, 0]
  constants ++ key ++ position

/-- The block of a counter. -/
def block (key : Vector UInt32 8) (counter : UInt64) : Block :=
  let s := initialState key counter
  (doubleRound <| doubleRound <| doubleRound <| doubleRound <| doubleRound <| doubleRound s).zipWith
    (· + ·) s

/-- The word of a key stream at a position. -/
def wordAt (key : Vector UInt32 8) (i : Nat) : UInt32 :=
  (block key (UInt64.ofNat (i / 16))).get ⟨i % 16, Nat.mod_lt i (by decide)⟩

/-- The next state of the generator of keys. -/
def seedStep (state : UInt64) : UInt64 := state * 6364136223846793005 + 11634580027462260723

/-- The word that a state of the generator of keys gives out. -/
def seedWord (state : UInt64) : UInt32 :=
  rotateRight (((state >>> 18) ^^^ state) >>> 27).toUInt32 (state >>> 59).toUInt32

/-- The key made from a seed: the words of the eight states after it. -/
def keyOfSeed (seed : UInt64) : Vector UInt32 8 :=
  .ofFn fun i => seedWord (Nat.repeat seedStep (i.val + 1) seed)

end GrammarTrace.ChaCha

namespace GrammarTrace.WordStream

/-- The key stream of a seed. Its counter comes round after `2 ^ 64` blocks of sixteen words. -/
def ofSeed (seed : UInt64) : WordStream :=
  let key := ChaCha.keyOfSeed seed
  { word := ChaCha.wordAt key, horizon := UInt64.size * 16 }

/-- Choosing by drawing the words of a key stream. -/
def seededChooser : SeededChooser WordStream where
  toChooser := chooser
  ofSeed := ofSeed

end GrammarTrace.WordStream
