/-!
# Symbols

A symbol is a piece of terminal text or a nonterminal. The name of a nonterminal keeps its angle
brackets, so that the text of a form is the concatenation of the texts of its symbols.
-/

namespace GrammarTrace

/-- The unit of a production, of a sentential form and of a tokenized input. -/
inductive Symbol where
  | terminal (text : String)
  | nonterminal (name : String)
deriving DecidableEq, Repr, Inhabited

namespace Symbol

/-- The text that stands for a symbol. -/
def text : Symbol → String
  | .terminal text => text
  | .nonterminal name => name

/-- Whether a symbol is a nonterminal. -/
def isNonterminal : Symbol → Bool
  | .terminal _ => false
  | .nonterminal _ => true

@[simp] theorem text_terminal (text : String) : (terminal text).text = text := rfl

@[simp] theorem text_nonterminal (name : String) : (nonterminal name).text = name := rfl

end Symbol

/-- A sentential form. -/
abbrev Form := List Symbol

namespace Form

/-- The texts of the symbols of a form, one after the other. -/
def text (form : Form) : String := String.join (form.map Symbol.text)

@[simp] theorem text_nil : text [] = "" := by simp [text]

@[simp] theorem text_cons (symbol : Symbol) (form : Form) :
    text (symbol :: form) = symbol.text ++ text form := by simp [text]

@[simp] theorem text_append (left right : Form) :
    text (left ++ right) = text left ++ text right := by
  simp [text]

/-- The names of the nonterminals of a form, repetitions included. -/
def nonterminals (form : Form) : List String :=
  form.filterMap fun
    | .terminal _ => none
    | .nonterminal name => some name

@[simp] theorem nonterminals_nil : nonterminals [] = [] := rfl

@[simp] theorem nonterminals_cons_terminal (text : String) (form : Form) :
    nonterminals (.terminal text :: form) = nonterminals form := rfl

@[simp] theorem nonterminals_cons_nonterminal (name : String) (form : Form) :
    nonterminals (.nonterminal name :: form) = name :: nonterminals form := rfl

@[simp] theorem nonterminals_append (left right : Form) :
    nonterminals (left ++ right) = nonterminals left ++ nonterminals right := by
  simp [nonterminals]

theorem mem_nonterminals {name : String} {form : Form} :
    name ∈ nonterminals form ↔ .nonterminal name ∈ form := by
  rw [nonterminals, List.mem_filterMap]
  constructor
  · rintro ⟨symbol, hmem, hname⟩
    cases symbol with
    | terminal text => cases hname
    | nonterminal other => exact Option.some.inj hname ▸ hmem
  · exact fun hmem => ⟨_, hmem, rfl⟩

end Form

end GrammarTrace
