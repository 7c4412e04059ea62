/-!
# Numbers on a command line

A number is a string of decimal digits with an optional sign in front. Numbers outside a range are
refused.
-/

namespace GrammarTrace.CommandLine

/-- The value of a nonempty string of decimal digits. -/
def digits? (text : List Char) : Option Nat :=
  if !text.isEmpty && text.all Char.isDigit then
    some (text.foldl (fun value c => 10 * value + (c.toNat - '0'.toNat)) 0)
  else none

/-- A number below a bound; it may have a plus sign. -/
def unsignedBelow? (bound : Nat) (text : String) : Option Nat :=
  let value := match text.toList with
    | '+' :: rest => digits? rest
    | rest => digits? rest
  value.filter (· < bound)

/-- A number below a bound which may have either sign, so that zero may be negative. -/
def signedBelow? (bound : Nat) (text : String) : Option Nat :=
  match text.toList with
  | '-' :: rest => (digits? rest).filter (· = 0)
  | _ => unsignedBelow? bound text

end GrammarTrace.CommandLine
