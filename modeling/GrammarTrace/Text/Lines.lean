/-!
# Lines

A line ends at a line feed, and a carriage return right before the line feed belongs to the line
end; a carriage return elsewhere is part of the line. What follows the last line feed is a line
unless it is empty. The same rule cuts characters and bytes.
-/

namespace GrammarTrace.Text

variable {α : Type} [BEq α]

/-- A list without a given element at its end. -/
def dropLastIf (element : α) (line : List α) : List α :=
  if line.getLast? == some element then line.dropLast else line

/-- The lines of a text, given the line feed and the carriage return. -/
def cutLines (feed carriage : α) (text : List α) : List (List α) :=
  let pieces := text.splitOn feed
  let ended := pieces.dropLast.map (dropLastIf carriage)
  match pieces.getLast? with
  | none | some [] => ended
  | some rest => ended ++ [rest]

/-- The lines of a text. -/
def lines (text : String) : List (List Char) := cutLines '\n' '\r' text.toList

/-- The lines of a sequence of bytes, not yet decoded. -/
def byteLines (bytes : ByteArray) : List (List UInt8) := cutLines 0x0a 0x0d bytes.toList

/-- The characters that bytes encode in UTF-8, if they do. -/
def decode? (bytes : List UInt8) : Option (List Char) :=
  (ByteArray.utf8Decode? bytes.toByteArray).map Array.toList

end GrammarTrace.Text
