/-!
# JSON text

Values of the JSON data format and their layout on indented lines: two spaces for every level, one
item or field per line, and an empty array or object on a line of its own.
-/

namespace GrammarTrace

/-- A JSON value whose numbers are natural; the fields of an object are kept in order. -/
inductive Json where
  | null
  | bool (value : Bool)
  | number (value : Nat)
  | string (value : String)
  | array (items : List Json)
  | object (fields : List (String × Json))
deriving Inhabited

namespace Json

/-- The escape of a control character that has no letter: its code in four hexadecimal digits. -/
def escapeCode (code : Nat) : List Char :=
  ['\\', 'u', '0', '0', Nat.digitChar (code / 16), Nat.digitChar (code % 16)]

/-- A character as it is written inside a quoted string. -/
def escape (c : Char) : List Char :=
  if c = '"' then ['\\', '"']
  else if c = '\\' then ['\\', '\\']
  else if c = '\x08' then ['\\', 'b']
  else if c = '\t' then ['\\', 't']
  else if c = '\n' then ['\\', 'n']
  else if c = '\x0c' then ['\\', 'f']
  else if c = '\r' then ['\\', 'r']
  else if c.toNat < 0x20 then escapeCode c.toNat
  else [c]

/-- A text in quotes. -/
def quote (text : String) : List Char := '"' :: text.toList.flatMap escape ++ ['"']

/-- The end of a line and the indentation of the next one. -/
def newline (level : Nat) : List Char := '\n' :: List.replicate (2 * level) ' '

mutual

/-- A value laid out at a level of indentation. -/
def layout (level : Nat) : Json → List Char
  | .null => "null".toList
  | .bool true => "true".toList
  | .bool false => "false".toList
  | .number value => Nat.toDigits 10 value
  | .string value => quote value
  | .array [] => ['[', ']']
  | .array (item :: items) =>
    '[' :: newline (level + 1) ++ layout (level + 1) item ++
      layoutItems (level + 1) items ++ newline level ++ [']']
  | .object [] => ['\x7b', '\x7d']
  | .object ((name, value) :: fields) =>
    '\x7b' :: newline (level + 1) ++ quote name ++ [':', ' '] ++ layout (level + 1) value ++
      layoutFields (level + 1) fields ++ newline level ++ ['\x7d']

/-- The items of an array after the first one. -/
def layoutItems (level : Nat) : List Json → List Char
  | [] => []
  | item :: items => ',' :: newline level ++ layout level item ++ layoutItems level items

/-- The fields of an object after the first one. -/
def layoutFields (level : Nat) : List (String × Json) → List Char
  | [] => []
  | (name, value) :: fields =>
    ',' :: newline level ++ quote name ++ [':', ' '] ++ layout level value ++
      layoutFields level fields

end

/-- A value as text. -/
def text (value : Json) : String := String.ofList (value.layout 0)

/-- A value or `null`. -/
def ofOption {α : Type} (write : α → Json) : Option α → Json
  | none => .null
  | some value => write value

end Json

end GrammarTrace
