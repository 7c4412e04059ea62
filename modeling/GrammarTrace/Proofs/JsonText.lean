import GrammarTrace.Report.Json
import Mathlib.Data.Nat.Digits.Defs

/-!
# JSON text is read in one way only

No two values have the same text, and no text of a value is continued to that of another one: a text
that begins with the layout of a value determines the value and what follows it
(`Json.layout_append_inj`). Only a number needs something to end it, so that what follows must not
begin with a digit.
-/

namespace GrammarTrace

namespace Json

variable {level : Nat} {rest rest' : List Char} {c d : Char} {text other : String}
  {value value' : Json} {chars chars' : List Char} {n m : Nat}

/-! ### Quoted texts -/

/-- The value of a hexadecimal digit. -/
def digitValue (c : Char) : Nat := if c.isDigit then c.toNat - '0'.toNat else c.toNat - 'a'.toNat + 10

/-- The first character that is meant inside a quoted string, and what follows it. -/
def unescape? : List Char → Option (Char × List Char)
  | '\\' :: 'u' :: '0' :: '0' :: high :: low :: rest =>
    some (Char.ofNat (16 * digitValue high + digitValue low), rest)
  | '\\' :: 'b' :: rest => some ('\x08', rest)
  | '\\' :: 't' :: rest => some ('\t', rest)
  | '\\' :: 'n' :: rest => some ('\n', rest)
  | '\\' :: 'f' :: rest => some ('\x0c', rest)
  | '\\' :: 'r' :: rest => some ('\r', rest)
  | '\\' :: c :: rest => some (c, rest)
  | c :: rest => some (c, rest)
  | [] => none

lemma digitValue_digitChar_of_lt (hn : n < 0x20) :
    16 * digitValue (Nat.digitChar (n / 16)) + digitValue (Nat.digitChar (n % 16)) = n := by
  revert n
  decide

lemma unescape?_cons_of_ne (hc : c ≠ '\\') : unescape? (c :: rest) = some (c, rest) := by
  rw [unescape?]
  all_goals simp [hc]

/-- A character can be read off its escape. -/
lemma unescape?_escape_append (c : Char) (rest : List Char) :
    unescape? (escape c ++ rest) = some (c, rest) := by
  by_cases hspecial : c ∈ ['"', '\\', '\x08', '\t', '\n', '\x0c', '\r']
  · simp only [List.mem_cons, List.not_mem_nil, or_false] at hspecial
    rcases hspecial with rfl | rfl | rfl | rfl | rfl | rfl | rfl <;> rfl
  · simp only [List.mem_cons, List.not_mem_nil, or_false, not_or] at hspecial
    simp only [escape, hspecial, if_false]
    split_ifs with hcode
    · simp [escapeCode, unescape?, digitValue_digitChar_of_lt hcode]
    · exact unescape?_cons_of_ne hspecial.2.1

lemma escape_append_inj (h : escape c ++ rest = escape d ++ rest') : c = d ∧ rest = rest' := by
  have hread := congrArg unescape? h
  rw [unescape?_escape_append, unescape?_escape_append] at hread
  exact Prod.mk.inj (Option.some.inj hread)

/-- A quote inside a text is escaped, so that it is not taken for the end of the text. -/
lemma escape_append_ne : escape c ++ rest ≠ '"' :: rest' := by
  intro h
  have hread := congrArg unescape? h
  rw [unescape?_escape_append, unescape?_cons_of_ne (by decide)] at hread
  obtain ⟨rfl, -⟩ := Prod.mk.inj (Option.some.inj hread)
  simp [escape] at h

lemma flatMap_escape_append_inj
    (h : chars.flatMap escape ++ '"' :: rest = chars'.flatMap escape ++ '"' :: rest') :
    chars = chars' ∧ rest = rest' := by
  induction chars generalizing chars' with
  | nil =>
    cases chars' with
    | nil => exact ⟨rfl, (List.cons.inj h).2⟩
    | cons d chars' =>
      rw [List.flatMap_cons, List.append_assoc] at h
      exact absurd h.symm escape_append_ne
  | cons c chars ih =>
    rw [List.flatMap_cons, List.append_assoc] at h
    cases chars' with
    | nil => exact absurd h escape_append_ne
    | cons d chars' =>
      rw [List.flatMap_cons, List.append_assoc] at h
      obtain ⟨rfl, htail⟩ := escape_append_inj h
      obtain ⟨rfl, rfl⟩ := ih htail
      exact ⟨rfl, rfl⟩

/-- A text in quotes shows where it ends. -/
lemma quote_append_inj (h : quote text ++ rest = quote other ++ rest') :
    text = other ∧ rest = rest' := by
  simp only [quote, List.cons_append, List.append_assoc, List.nil_append, List.cons.injEq,
    true_and] at h
  obtain ⟨htext, rfl⟩ := flatMap_escape_append_inj h
  exact ⟨String.toList_injective htext, rfl⟩

/-! ### Numbers -/

/-- Whether a text does not go on with a digit. -/
def EndsNumber (rest : List Char) : Prop := ∀ c ∈ rest.head?, c.isDigit = false

lemma endsNumber_cons (hc : c.isDigit = false) (rest : List Char) : EndsNumber (c :: rest) := by
  simpa [EndsNumber] using hc

lemma isDigit_of_mem_toDigits (hc : c ∈ Nat.toDigits 10 n) : c.isDigit = true :=
  Nat.isDigit_of_mem_toDigits (by decide) (by decide) hc

lemma EndsNumber.eq_nil (h : EndsNumber (chars ++ rest)) (hchars : ∀ c ∈ chars, c.isDigit = true) :
    chars = [] := by
  cases chars with
  | nil => rfl
  | cons c chars =>
    have hc := hchars c List.mem_cons_self
    rw [h c rfl] at hc
    cases hc

/-- A number ends where there are no more digits. -/
lemma toDigits_append_inj (hrest : EndsNumber rest) (hrest' : EndsNumber rest')
    (h : Nat.toDigits 10 n ++ rest = Nat.toDigits 10 m ++ rest') : n = m ∧ rest = rest' := by
  have hdigits : Nat.toDigits 10 n = Nat.toDigits 10 m := by
    rcases List.append_eq_append_iff.mp h with ⟨more, hm, rfl⟩ | ⟨more, hn, rfl⟩
    · have hmore : more = [] := hrest.eq_nil fun c hc =>
        isDigit_of_mem_toDigits (hm ▸ List.mem_append_right _ hc)
      rw [hm, hmore, List.append_nil]
    · have hmore : more = [] := hrest'.eq_nil fun c hc =>
        isDigit_of_mem_toDigits (hn ▸ List.mem_append_right _ hc)
      rw [hn, hmore, List.append_nil]
  refine ⟨?_, List.append_cancel_left (hdigits ▸ h)⟩
  rw [← Nat.ofDigitChars_ten_toDigits (n := n), hdigits, Nat.ofDigitChars_ten_toDigits]

/-! ### Kinds of values -/

/-- The kinds of values. -/
inductive Kind where
  | null
  | bool
  | number
  | string
  | array
  | object

/-- The kind of a value. -/
def kind : Json → Kind
  | .null => .null
  | .bool _ => .bool
  | .number _ => .number
  | .string _ => .string
  | .array _ => .array
  | .object _ => .object

/-- The kind of the values that are written with a character in front. -/
def Kind.ofChar : Char → Kind
  | 'n' => .null
  | 't' | 'f' => .bool
  | '"' => .string
  | '[' => .array
  | '\x7b' => .object
  | _ => .number

lemma Kind.ofChar_of_isDigit (hc : c.isDigit = true) : Kind.ofChar c = .number := by
  unfold Kind.ofChar
  split
  all_goals first | rfl | cases hc

lemma exists_layout_eq_cons (level : Nat) (value : Json) :
    ∃ c tail, layout level value = c :: tail ∧ Kind.ofChar c = value.kind := by
  match value with
  | .null => exact ⟨_, _, rfl, rfl⟩
  | .bool true => exact ⟨_, _, rfl, rfl⟩
  | .bool false => exact ⟨_, _, rfl, rfl⟩
  | .number n =>
    obtain ⟨c, tail, hdigits⟩ := List.exists_cons_of_ne_nil (Nat.toDigits_ne_nil (n := n) (b := 10))
    refine ⟨c, tail, hdigits, Kind.ofChar_of_isDigit (isDigit_of_mem_toDigits (n := n) ?_)⟩
    rw [hdigits]
    exact List.mem_cons_self
  | .string text => exact ⟨_, _, rfl, rfl⟩
  | .array [] => exact ⟨_, _, rfl, rfl⟩
  | .array (item :: items) => exact ⟨_, _, rfl, rfl⟩
  | .object [] => exact ⟨_, _, rfl, rfl⟩
  | .object ((name, value) :: fields) => exact ⟨_, _, rfl, rfl⟩

/-- The first character tells the kind of a value. -/
lemma kind_eq_of_layout_append (h : layout level value ++ rest = layout level value' ++ rest') :
    value.kind = value'.kind := by
  obtain ⟨c, tail, hlayout, hkind⟩ := exists_layout_eq_cons level value
  obtain ⟨d, tail', hlayout', hkind'⟩ := exists_layout_eq_cons level value'
  rw [hlayout, hlayout', List.cons_append, List.cons_append] at h
  rw [← hkind, ← hkind', (List.cons.inj h).1]

/-! ### Layouts -/

lemma endsNumber_layoutItems (level : Nat) (items : List Json) (rest : List Char) :
    EndsNumber (layoutItems level items ++ '\n' :: rest) := by
  cases items with
  | nil => exact endsNumber_cons (by decide) rest
  | cons item items =>
    simp only [layoutItems, List.cons_append]
    exact endsNumber_cons (by decide) _

lemma endsNumber_layoutFields (level : Nat) (fields : List (String × Json)) (rest : List Char) :
    EndsNumber (layoutFields level fields ++ '\n' :: rest) := by
  cases fields with
  | nil => exact endsNumber_cons (by decide) rest
  | cons field fields =>
    simp only [layoutFields, List.cons_append]
    exact endsNumber_cons (by decide) _

mutual

/-- A layout determines its value and what follows it. -/
theorem layout_append_inj (level : Nat) (value value' : Json) {rest rest' : List Char}
    (hrest : EndsNumber rest) (hrest' : EndsNumber rest')
    (h : layout level value ++ rest = layout level value' ++ rest') :
    value = value' ∧ rest = rest' := by
  have hkind := kind_eq_of_layout_append h
  match value with
  | .null =>
    cases value' with
    | null => exact ⟨rfl, List.append_cancel_left h⟩
    | _ => cases hkind
  | .bool b =>
    cases value' with
    | bool b' =>
      match b, b' with
      | true, true => exact ⟨rfl, List.append_cancel_left h⟩
      | false, false => exact ⟨rfl, List.append_cancel_left h⟩
      | true, false => simp [layout] at h
      | false, true => simp [layout] at h
    | _ => cases hkind
  | .number n =>
    cases value' with
    | number m =>
      obtain ⟨rfl, rfl⟩ := toDigits_append_inj hrest hrest' h
      exact ⟨rfl, rfl⟩
    | _ => cases hkind
  | .string text =>
    cases value' with
    | string other =>
      obtain ⟨rfl, rfl⟩ := quote_append_inj h
      exact ⟨rfl, rfl⟩
    | _ => cases hkind
  | .array [] =>
    cases value' with
    | array items' =>
      cases items' with
      | nil => exact ⟨rfl, List.append_cancel_left h⟩
      | cons item' items' => simp [layout, newline] at h
    | _ => cases hkind
  | .array (item :: items) =>
    cases value' with
    | array items' =>
      cases items' with
      | nil => simp [layout, newline] at h
      | cons item' items' =>
        have hitems :
            layoutItems (level + 1) (item :: items) ++ newline level ++ ']' :: rest =
              layoutItems (level + 1) (item' :: items') ++ newline level ++ ']' :: rest' := by
          simpa [layout, layoutItems] using h
        simp only [newline, List.append_assoc, List.cons_append] at hitems
        obtain ⟨⟨⟩, hend⟩ := layoutItems_append_inj (level + 1) _ _ hitems
        simpa using hend
    | _ => cases hkind
  | .object [] =>
    cases value' with
    | object fields' =>
      cases fields' with
      | nil => exact ⟨rfl, List.append_cancel_left h⟩
      | cons field' fields' => simp [layout, newline] at h
    | _ => cases hkind
  | .object (field :: fields) =>
    cases value' with
    | object fields' =>
      cases fields' with
      | nil => simp [layout, newline] at h
      | cons field' fields' =>
        have hfields :
            layoutFields (level + 1) (field :: fields) ++ newline level ++ '\x7d' :: rest =
              layoutFields (level + 1) (field' :: fields') ++ newline level ++ '\x7d' :: rest' := by
          simpa [layout, layoutFields] using h
        simp only [newline, List.append_assoc, List.cons_append] at hfields
        obtain ⟨⟨⟩, hend⟩ := layoutFields_append_inj (level + 1) _ _ hfields
        simpa using hend
    | _ => cases hkind

/-- The items of an array end before a line that does not begin with a comma. -/
lemma layoutItems_append_inj (level : Nat) (items items' : List Json) {rest rest' : List Char}
    (h : layoutItems level items ++ '\n' :: rest = layoutItems level items' ++ '\n' :: rest') :
    items = items' ∧ rest = rest' := by
  match items, items' with
  | [], [] => exact ⟨rfl, (List.cons.inj h).2⟩
  | [], _ :: _ => simp [layoutItems] at h
  | _ :: _, [] => simp [layoutItems] at h
  | item :: items, item' :: items' =>
    simp only [layoutItems, newline, List.cons_append, List.append_assoc, List.cons.injEq,
      true_and, List.append_cancel_left_eq] at h
    obtain ⟨rfl, hitems⟩ := layout_append_inj level item item'
      (endsNumber_layoutItems _ _ _) (endsNumber_layoutItems _ _ _) h
    obtain ⟨rfl, rfl⟩ := layoutItems_append_inj level items items' hitems
    exact ⟨rfl, rfl⟩

/-- The fields of an object end before a line that does not begin with a comma. -/
lemma layoutFields_append_inj (level : Nat) (fields fields' : List (String × Json))
    {rest rest' : List Char}
    (h : layoutFields level fields ++ '\n' :: rest =
      layoutFields level fields' ++ '\n' :: rest') :
    fields = fields' ∧ rest = rest' := by
  match fields, fields' with
  | [], [] => exact ⟨rfl, (List.cons.inj h).2⟩
  | [], _ :: _ => simp [layoutFields] at h
  | _ :: _, [] => simp [layoutFields] at h
  | (name, value) :: fields, (name', value') :: fields' =>
    simp only [layoutFields, newline, List.cons_append, List.append_assoc, List.cons.injEq,
      true_and, List.append_cancel_left_eq] at h
    obtain ⟨rfl, hvalue⟩ := quote_append_inj h
    simp only [List.cons.injEq, true_and, List.nil_append] at hvalue
    obtain ⟨rfl, hfields⟩ := layout_append_inj level value value'
      (endsNumber_layoutFields _ _ _) (endsNumber_layoutFields _ _ _) hvalue
    obtain ⟨rfl, rfl⟩ := layoutFields_append_inj level fields fields' hfields
    exact ⟨rfl, rfl⟩

end

-- a number does not show where it ends
example : layout 0 (.number 1) ++ ['2'] = layout 0 (.number 12) := by decide +kernel

end Json

end GrammarTrace
