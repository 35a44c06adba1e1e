/-!
# Bindings of names

A finite table from names to whatever they are bound to, in the order in which
the names were first bound.  Binding a name again replaces what it is bound to.
-/

namespace Lox

structure Bindings (α : Type) where
  entries : List (String × α)
  deriving Repr

namespace Bindings

variable {α : Type}

def empty : Bindings α := ⟨[]⟩

instance : Inhabited (Bindings α) := ⟨empty⟩

def findEntry (name : String) : List (String × α) → Option α
  | [] => none
  | (other, a) :: rest => if name = other then some a else findEntry name rest

def find? (bindings : Bindings α) (name : String) : Option α := findEntry name bindings.entries

def contains (bindings : Bindings α) (name : String) : Bool := (bindings.find? name).isSome

/-- Replaces the entry of a name, or adds one at the end. -/
def insertEntry (name : String) (a : α) : List (String × α) → List (String × α)
  | [] => [(name, a)]
  | (other, b) :: rest =>
    if name = other then (other, a) :: rest else (other, b) :: insertEntry name a rest

def insert (bindings : Bindings α) (name : String) (a : α) : Bindings α :=
  ⟨insertEntry name a bindings.entries⟩

theorem findEntry_insertEntry (name other : String) (a : α) (entries : List (String × α)) :
    findEntry other (insertEntry name a entries) =
      if other = name then some a else findEntry other entries := by
  induction entries with
  | nil => rfl
  | cons entry rest ih =>
    obtain ⟨key, b⟩ := entry
    by_cases bound : name = key
    · subst bound
      by_cases h : other = name <;> simp [insertEntry, findEntry, h]
    · by_cases h : other = key
      · have : ¬ key = name := fun same => bound same.symm
        simp [insertEntry, bound, findEntry, h, this]
      · simp [insertEntry, bound, findEntry, h, ih]

theorem find?_insert (bindings : Bindings α) (name other : String) (a : α) :
    (bindings.insert name a).find? other =
      if other = name then some a else bindings.find? other :=
  findEntry_insertEntry name other a bindings.entries

end Bindings

end Lox
