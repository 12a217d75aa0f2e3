/-!
# Bindings

Values by name.  Setting the value of a name replaces the value it had and
leaves all other names alone, which is `find?_insert`.
-/

namespace LSystem

/-- Values by name.  A name that has several entries has the value of the
first. -/
structure Bindings (α : Type) where
  entries : List (String × α)

namespace Bindings

variable {α : Type}

/-- No bindings. -/
def empty : Bindings α := ⟨[]⟩

/-- The value of a name in a list of entries. -/
def findIn (name : String) : List (String × α) → Option α
  | [] => none
  | (other, value) :: rest => if other = name then some value else findIn name rest

/-- The value of a name. -/
def find? (b : Bindings α) (name : String) : Option α := findIn name b.entries

/-- Entries with the value of a name set. -/
def insertIn (name : String) (value : α) : List (String × α) → List (String × α)
  | [] => [(name, value)]
  | (other, old) :: rest =>
    if other = name then (name, value) :: rest else (other, old) :: insertIn name value rest

/-- Bindings with the value of a name set, whatever it was before. -/
def insert (b : Bindings α) (name : String) (value : α) : Bindings α :=
  ⟨insertIn name value b.entries⟩

/-- After a value is set for a name, this name has that value and every other name has what it
had, by induction on the entries. -/
theorem findIn_insertIn (name other : String) (value : α) (entries : List (String × α)) :
    findIn other (insertIn name value entries) =
      if name = other then some value else findIn other entries := by
  induction entries with
  | nil => simp [insertIn, findIn]
  | cons entry rest ih =>
    obtain ⟨key, old⟩ := entry
    by_cases hkey : key = name
    · subst hkey
      by_cases hother : key = other <;> simp [insertIn, findIn, hother]
    · by_cases hother : key = other
      · subst hother
        simp [insertIn, findIn, hkey, Ne.symm hkey]
      · simp [insertIn, findIn, hkey, hother, ih]

/-- A name has the value it was given last. -/
theorem find?_insert (b : Bindings α) (name other : String) (value : α) :
    (b.insert name value).find? other = if name = other then some value else b.find? other :=
  findIn_insertIn name other value b.entries

end Bindings

end LSystem
