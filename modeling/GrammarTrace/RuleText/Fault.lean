import GrammarTrace.Diagnostic

/-!
# Faults of rule text

What can be wrong with a text of rules or with reading it from a file, and how it is put.
-/

namespace GrammarTrace

/-- The kind of a failure to read a file. -/
inductive FileFailureKind where
  | notFound
  | permissionDenied
  | notADirectory
  | isADirectory
  | invalidFilename
  /-- The file name cannot be passed on. -/
  | invalidInput
  /-- What was read is no text. -/
  | invalidData
  | other
deriving DecidableEq, Repr

/-- A failure to read a file. -/
structure FileFailure where
  kind : FileFailureKind
  text : String
deriving DecidableEq, Repr

namespace FileFailure

/-- The bytes read are not UTF-8. -/
def notText : FileFailure := ⟨.invalidData, "stream did not contain valid UTF-8"⟩

end FileFailure

/-- A fault of rule text. -/
inductive RuleFault where
  /-- A rule line has no `:=`. -/
  | missingDefines
  /-- A rule line has more than one `:=`. -/
  | unexpectedDefines
  /-- What a rule line defines is not a single nonterminal. -/
  | missingNonterminal
  /-- A text has a `<` without its `>`. -/
  | malformedNonterminal (text : String)
  /-- A nonterminal is used and has no rule. -/
  | undefinedNonterminal (name : String)
  /-- There is no rule at all. -/
  | emptyGrammar
  /-- Alternatives reached the reader of a single alternative. -/
  | unsplitAlternatives
  /-- A blank line reached the reader of rule lines. -/
  | unexpectedBlankLine
  /-- A file could not be read. -/
  | file (failure : FileFailure)
deriving DecidableEq, Repr

namespace RuleFault

/-- The sentence of a fault. -/
def message : RuleFault → String
  | .missingDefines => "Expected `:=` after nonterminal"
  | .unexpectedDefines => "Unexpected `:=` encountered"
  | .missingNonterminal => "Tried to define something other than a single nonterminal"
  | .malformedNonterminal text => "Unclosed `<` in `" ++ text ++ "`"
  | .undefinedNonterminal name => "Could not find definition for `" ++ name ++ "`"
  | .emptyGrammar => "The grammar has no rules"
  | .unsplitAlternatives =>
    "Rewrite was not fully split (this is a problem with derivator, not the grammar)"
  | .unexpectedBlankLine =>
    "Blank line encountered in rule parser (this is a problem with derivator, not the grammar)"
  | .file failure => "File error: " ++ failure.text

instance : ToString RuleFault := ⟨message⟩

/-- Whether two faults are of the same kind and about the same text. Of failures to read a file
only the kind counts. -/
def agrees : RuleFault → RuleFault → Bool
  | .file failure, .file other => failure.kind == other.kind
  | fault, other => fault == other

end RuleFault

namespace Diagnostic

/-- Whether two diagnostics report the same fault at the same place. -/
def agrees (d e : Diagnostic RuleFault) : Bool :=
  d.location.agrees e.location && d.fault.agrees e.fault

end Diagnostic

end GrammarTrace
