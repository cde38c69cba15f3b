import TermRegistry.Term

/-!
# Storages

A storage says what the names of references stand for. It is a finite list of named terms, in
which the first term of a name hides the others; the number of terms in it is kept beside it,
because it bounds how deep matching has to go.
-/

namespace TermRegistry

/-- How many terms occur in some named terms. -/
def Storage.weightOf (entries : List (String × Term)) : Nat :=
  entries.foldr (fun e n ↦ e.2.size + n) 0

/-- Finitely many named terms. -/
structure Storage where
  entries : List (String × Term) := []
  /-- How many terms occur in the stored terms. -/
  weight : Nat := Storage.weightOf entries
  weight_eq : weight = Storage.weightOf entries := by rfl

namespace Storage

/-- What a name stands for. -/
def resolve (s : Storage) (name : String) : Option Term := s.entries.lookup name

/-- The storage of some named terms. -/
def ofList (entries : List (String × Term)) : Storage := { entries }

/-- The storage with nothing in it. -/
def empty : Storage := {}

@[simp] theorem resolve_empty (name : String) : empty.resolve name = none := rfl

end Storage

end TermRegistry
