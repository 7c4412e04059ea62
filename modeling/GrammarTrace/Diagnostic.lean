import GrammarTrace.Text.Path

/-!
# Diagnostics

A diagnostic is a fault at a location. It can be shown as an error, in red, or as a warning, in
yellow.
-/

namespace GrammarTrace

/-- A line of a file, counted from one, or a whole file. -/
structure Location where
  file : String
  /-- The line, or zero for the whole file. -/
  line : Nat := 0
deriving DecidableEq, Repr

namespace Location

/-- A location as text. A text without a file name has lines only. -/
def text (l : Location) : String :=
  if l.file.isEmpty then "<input>:" ++ toString l.line
  else if l.line = 0 then l.file
  else l.file ++ ":" ++ toString l.line

/-- Whether two locations are the same line of the same path. -/
def agrees (l m : Location) : Bool := Text.samePath l.file m.file && l.line == m.line

end Location

/-- A fault at a location. -/
structure Diagnostic (φ : Type) where
  location : Location
  fault : φ
deriving DecidableEq, Repr

namespace Diagnostic

variable {φ : Type} [ToString φ]

/-- A diagnostic in the colours of an error. -/
def asError (d : Diagnostic φ) : String :=
  "\x1b[31;49;1m[" ++ d.location.text ++ "]\x1b[39;49;1m  " ++ toString d.fault ++ "\x1b[0m"

/-- A diagnostic in the colours of a warning. -/
def asWarning (d : Diagnostic φ) : String :=
  "\x1b[33;49;1m[" ++ d.location.text ++ "] warning:\x1b[39;49;1m  " ++ toString d.fault
    ++ "\x1b[0m"

end Diagnostic

end GrammarTrace
