/-
  Lox.Bindings — tables from names to values that remember the order in which the
  names came in. Environments, fields of instances, method tables and scopes are
  such tables.

  A name occurs once (`keys_set`): writing to a name that is there replaces its value
  in place, writing to a new name adds it at the end. Reading after a write is the
  law of a table (`get?_set`).
-/

namespace Lox

/-- A table from names to values, in the order in which the names were first written. -/
structure Bindings (α : Type) where
  entries : List (String × α)
  deriving Repr

namespace Bindings

variable {α : Type}

def empty : Bindings α := ⟨[]⟩

instance : EmptyCollection (Bindings α) := ⟨empty⟩
instance : Inhabited (Bindings α) := ⟨empty⟩

/-! ## Reading -/

def find (name : String) : List (String × α) → Option α
  | [] => none
  | (key, value) :: rest => if key = name then some value else find name rest

def get? (table : Bindings α) (name : String) : Option α := find name table.entries

def contains (table : Bindings α) (name : String) : Bool := (table.get? name).isSome

def keys (table : Bindings α) : List String := table.entries.map (·.1)

/-! ## Writing -/

def put (name : String) (value : α) : List (String × α) → List (String × α)
  | [] => [(name, value)]
  | (key, old) :: rest =>
    if key = name then (key, value) :: rest else (key, old) :: put name value rest

/-- Replaces the value of a name in place; a new name goes to the end. -/
def set (table : Bindings α) (name : String) (value : α) : Bindings α :=
  ⟨put name value table.entries⟩

/-- Changes the value of a name that is there. -/
def adjust (table : Bindings α) (name : String) (change : α → α) : Bindings α :=
  ⟨table.entries.map fun (key, value) => (key, if key = name then change value else value)⟩

def single (name : String) (value : α) : Bindings α := ⟨[(name, value)]⟩

/-! ## Laws -/

@[simp] theorem get?_empty (name : String) : (∅ : Bindings α).get? name = none := rfl

@[simp] theorem get?_single (name other : String) (value : α) :
    (single name value).get? other = if name = other then some value else none := rfl

/-- What has been put is found under its name, and nothing else has changed. -/
theorem find_put (name other : String) (value : α) (entries : List (String × α)) :
    find other (put name value entries) = if name = other then some value else find other entries := by
  induction entries with
  | nil => rfl
  | cons entry rest ih =>
    obtain ⟨key, old⟩ := entry
    by_cases h : key = name
    · subst h
      by_cases o : key = other <;> simp [put, find, o]
    · by_cases o : key = other
      · subst o
        have : ¬ name = key := fun e => h e.symm
        simp [put, find, h, this]
      · simp [put, find, h, o, ih]

@[simp] theorem get?_set (table : Bindings α) (name other : String) (value : α) :
    (table.set name value).get? other = if name = other then some value else table.get? other :=
  find_put name other value table.entries

/-- A name that is put again keeps its place; a new one comes last. -/
theorem keys_put (name : String) (value : α) (entries : List (String × α)) :
    (put name value entries).map (·.1)
      = if name ∈ entries.map (·.1) then entries.map (·.1) else entries.map (·.1) ++ [name] := by
  induction entries with
  | nil => rfl
  | cons entry rest ih =>
    obtain ⟨key, old⟩ := entry
    by_cases h : key = name
    · subst h; simp [put]
    · have h' : ¬ name = key := fun e => h e.symm
      by_cases o : name ∈ rest.map (·.1) <;> simp_all [put]

theorem keys_set (table : Bindings α) (name : String) (value : α) :
    (table.set name value).keys = if name ∈ table.keys then table.keys else table.keys ++ [name] :=
  keys_put name value table.entries

/-- To change all values is to change the one that is found. -/
theorem find_map (name : String) (change : String → α → α) (entries : List (String × α)) :
    find name (entries.map fun (key, value) => (key, change key value))
      = (find name entries).map (change name) := by
  induction entries with
  | nil => rfl
  | cons entry rest ih =>
    obtain ⟨key, value⟩ := entry
    by_cases h : key = name
    · subst h; simp [find]
    · simpa [find, h] using ih

/-- Writing into a table whose values have all been changed. -/
theorem put_map {β : Type} (change : α → β) (name : String) (value : α) (entries : List (String × α)) :
    put name (change value) (entries.map fun (key, value) => (key, change value))
      = (put name value entries).map fun (key, value) => (key, change value) := by
  induction entries with
  | nil => rfl
  | cons entry rest ih =>
    obtain ⟨key, old⟩ := entry
    by_cases h : key = name
    · simp [put, h]
    · simpa [put, h] using ih

@[simp] theorem get?_adjust (table : Bindings α) (name other : String) (change : α → α) :
    (table.adjust name change).get? other
      = (table.get? other).map fun value => if other = name then change value else value :=
  find_map other (fun key value => if key = name then change value else value) table.entries

@[simp] theorem keys_adjust (table : Bindings α) (name : String) (change : α → α) :
    (table.adjust name change).keys = table.keys := by
  simp [adjust, keys, Function.comp_def]

theorem find_eq_none_iff (name : String) (entries : List (String × α)) :
    find name entries = none ↔ name ∉ entries.map (·.1) := by
  induction entries with
  | nil => simp [find]
  | cons entry rest ih =>
    obtain ⟨key, value⟩ := entry
    by_cases h : key = name
    · simp [find, h]
    · have h' : ¬ name = key := fun e => h e.symm
      simp [find, h, h', ih]

theorem get?_eq_none_iff (table : Bindings α) (name : String) :
    table.get? name = none ↔ name ∉ table.keys :=
  find_eq_none_iff name table.entries

end Bindings

end Lox
