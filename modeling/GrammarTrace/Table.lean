/-!
# Tables in order of first insertion

A table assigns values to names. It remembers the order in which the names first came in;
assigning to a name that is already there replaces the value and leaves the order alone.
-/

namespace GrammarTrace

/-- Names with their values, in order of first insertion. -/
structure Table (β : Type) where
  entries : List (String × β)
  nodup : (entries.map Prod.fst).Nodup

namespace Table

variable {β γ : Type}

/-- Assign to a name in a list of entries, at its place or at the end. -/
def assign (name : String) (value : β) : List (String × β) → List (String × β)
  | [] => [(name, value)]
  | entry :: rest =>
    if entry.1 = name then (name, value) :: rest else entry :: assign name value rest

theorem mem_keys_assign {name other : String} {value : β} {entries : List (String × β)} :
    other ∈ (assign name value entries).map Prod.fst ↔
      other = name ∨ other ∈ entries.map Prod.fst := by
  induction entries with
  | nil => simp [assign]
  | cons entry rest ih =>
    by_cases h : entry.1 = name
    · simp [assign, h]
    · simp only [assign, h, if_false, List.map_cons, List.mem_cons, ih]
      grind

theorem nodup_keys_assign (name : String) (value : β) {entries : List (String × β)}
    (h : (entries.map Prod.fst).Nodup) : ((assign name value entries).map Prod.fst).Nodup := by
  induction entries with
  | nil => simp [assign]
  | cons entry rest ih =>
    rw [List.map_cons, List.nodup_cons] at h
    by_cases hn : entry.1 = name
    · subst hn
      simpa only [assign, if_true, List.map_cons, List.nodup_cons] using h
    · simp only [assign, hn, if_false, List.map_cons, List.nodup_cons, mem_keys_assign]
      exact ⟨by simp [h.1], ih h.2⟩

/-- The table without names. -/
def empty : Table β := ⟨[], by simp⟩

/-- Assign a value to a name. -/
def insert (table : Table β) (name : String) (value : β) : Table β :=
  ⟨assign name value table.entries, nodup_keys_assign name value table.nodup⟩

/-- Assign values to names from left to right. -/
def ofList (entries : List (String × β)) : Table β :=
  entries.foldl (fun table entry => table.insert entry.1 entry.2) empty

/-- The value of a name. -/
def get? (table : Table β) (name : String) : Option β := table.entries.lookup name

/-- The names in order. -/
def names (table : Table β) : List String := table.entries.map Prod.fst

/-- Change every value and keep the names. -/
def mapValues (f : β → γ) (table : Table β) : Table γ :=
  ⟨table.entries.map fun entry => (entry.1, f entry.2), by
    simpa only [List.map_map, Function.comp_def] using table.nodup⟩

/-! ### Laws -/

theorem lookup_cons_ite (name other : String) (value : β) (rest : List (String × β)) :
    ((name, value) :: rest).lookup other =
      if other = name then some value else rest.lookup other := by
  rw [List.lookup_cons]
  by_cases h : other = name
  · simp [h]
  · simp [h, beq_eq_false_iff_ne.mpr h]

theorem lookup_assign (name other : String) (value : β) (entries : List (String × β)) :
    (assign name value entries).lookup other =
      if other = name then some value else entries.lookup other := by
  induction entries with
  | nil => simp [assign, lookup_cons_ite]
  | cons entry rest ih =>
    obtain ⟨key, old⟩ := entry
    by_cases hn : key = name
    · simp only [assign, hn, if_true, lookup_cons_ite]
      split <;> rfl
    · simp only [assign, hn, if_false, lookup_cons_ite, ih]
      by_cases ho : other = name
      · simp [ho, Ne.symm hn]
      · simp [ho]

/-- Assigning to a name changes the value of that name only. -/
theorem get?_insert (table : Table β) (name other : String) (value : β) :
    (table.insert name value).get? other = if other = name then some value else table.get? other :=
  lookup_assign name other value table.entries

theorem keys_assign (name : String) (value : β) (entries : List (String × β)) :
    (assign name value entries).map Prod.fst =
      if name ∈ entries.map Prod.fst then entries.map Prod.fst
      else entries.map Prod.fst ++ [name] := by
  induction entries with
  | nil => simp [assign]
  | cons entry rest ih =>
    by_cases hn : entry.1 = name
    · simp [assign, hn]
    · simp only [assign, hn, if_false, List.map_cons, ih, List.mem_cons, Ne.symm hn, false_or]
      split <;> simp

/-- A new name comes last; a known one keeps its place. -/
theorem names_insert (table : Table β) (name : String) (value : β) :
    (table.insert name value).names =
      if name ∈ table.names then table.names else table.names ++ [name] :=
  keys_assign name value table.entries

theorem lookup_eq_some_iff {name : String} {value : β} {entries : List (String × β)}
    (h : (entries.map Prod.fst).Nodup) :
    entries.lookup name = some value ↔ (name, value) ∈ entries := by
  induction entries with
  | nil => simp
  | cons entry rest ih =>
    obtain ⟨key, old⟩ := entry
    rw [List.map_cons, List.nodup_cons] at h
    rw [lookup_cons_ite, List.mem_cons, Prod.mk.injEq]
    by_cases hn : name = key
    · subst hn
      -- the names are distinct, so no later entry can be meant
      have not_mem : (name, value) ∉ rest := fun mem => h.1 (List.mem_map.mpr ⟨_, mem, rfl⟩)
      simp [not_mem, eq_comm]
    · simp [hn, ih h.2]

/-- The names are distinct, so a name has the value that it is entered with. -/
theorem get?_eq_some_iff {table : Table β} {name : String} {value : β} :
    table.get? name = some value ↔ (name, value) ∈ table.entries :=
  lookup_eq_some_iff table.nodup

/-- A name has a value if it is among the names. -/
theorem isSome_get?_iff {table : Table β} {name : String} :
    (table.get? name).isSome = true ↔ name ∈ table.names := by
  simp [get?, names, List.lookup_isSome_iff]

theorem mem_entries_mapValues {f : β → γ} {table : Table β} {name : String} {value : γ} :
    (name, value) ∈ (table.mapValues f).entries ↔
      ∃ old, (name, old) ∈ table.entries ∧ f old = value := by
  simp only [mapValues, List.mem_map, Prod.exists]
  constructor
  · rintro ⟨_, old, hmem, heq⟩
    cases heq
    exact ⟨old, hmem, rfl⟩
  · rintro ⟨old, hmem, rfl⟩
    exact ⟨name, old, hmem, rfl⟩

@[simp] theorem names_mapValues (f : β → γ) (table : Table β) :
    (table.mapValues f).names = table.names := by
  simp [names, mapValues]

end Table

end GrammarTrace
