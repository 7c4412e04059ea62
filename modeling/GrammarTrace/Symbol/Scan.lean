import GrammarTrace.Symbol

/-!
# Scanning text into symbols

Text is scanned from left to right. A `<`, a name without brackets and a `>` make a nonterminal;
everything outside such a bracket pair is terminal text, a lone `>` included. A granularity says
whether a stretch of terminal text is one symbol or one symbol per character. Scanning fails at the
first `<` that is followed by another `<` or by the end of the text before its `>`.
-/

namespace GrammarTrace

/-- How a stretch of terminal text is divided into symbols. -/
inductive Granularity where
  /-- Every character is a symbol. -/
  | char
  /-- A maximal stretch is one symbol. -/
  | run
deriving DecidableEq, Repr

namespace Granularity

/-- The symbols of a nonempty stretch of terminal text. -/
def divide : Granularity → List Char → Form
  | .char, stretch => stretch.map fun c => .terminal (String.singleton c)
  | .run, stretch => [.terminal (String.ofList stretch)]

end Granularity

/-- A `<` without its `>`; the position counts the UTF-8 bytes before it. -/
structure UnclosedBracket where
  position : Nat
deriving DecidableEq, Repr

namespace UnclosedBracket

/-- The error as a sentence; columns count from one. -/
def message (e : UnclosedBracket) : String :=
  "Unclosed `<` at column " ++ toString (e.position + 1)

end UnclosedBracket

/-- The number of bytes of a text in UTF-8. -/
def utf8Length : List Char → Nat
  | [] => 0
  | c :: rest => c.utf8Size + utf8Length rest

/-- Whether a character may stand between the brackets of a nonterminal. -/
def isNameChar (c : Char) : Bool := c ≠ '<' && c ≠ '>'

/-- Whether a character belongs to a stretch of terminal text. -/
def isPlainChar (c : Char) : Bool := c ≠ '<'

private theorem length_dropWhile_le {α : Type} (p : α → Bool) (l : List α) :
    (l.dropWhile p).length ≤ l.length :=
  (List.dropWhile_sublist p).length_le

/-- Scan a text that starts at a byte position. -/
def scanAt (granularity : Granularity) (position : Nat) (text : List Char) :
    Except UnclosedBracket Form :=
  match text with
  | [] => .ok []
  | c :: rest =>
    if c = '<' then
      let name := rest.takeWhile isNameChar
      match _h : rest.dropWhile isNameChar with
      | [] => .error ⟨position⟩
      | close :: after =>
        if close = '>' then
          (scanAt granularity (position + utf8Length name + 2) after).map
            (.nonterminal (String.ofList ('<' :: name ++ ['>'])) :: ·)
        else
          .error ⟨position⟩
    else
      let stretch := c :: rest.takeWhile isPlainChar
      (scanAt granularity (position + utf8Length stretch) (rest.dropWhile isPlainChar)).map
        (granularity.divide stretch ++ ·)
termination_by text.length
decreasing_by
  · have := length_dropWhile_le isNameChar rest
    rw [_h] at this
    simp at this ⊢
    omega
  · have := length_dropWhile_le isPlainChar rest
    simp
    omega

/-- The symbols of a text at a granularity. -/
def scan (granularity : Granularity) (text : String) : Except UnclosedBracket Form :=
  scanAt granularity 0 text.toList

end GrammarTrace
