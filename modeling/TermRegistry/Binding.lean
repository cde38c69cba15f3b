import TermRegistry.Term

/-!
# Bindings

A binding holds one term for each of finitely many names. The name `""` is kept for the whole
term that was matched. Order has no meaning: `get?` is the view through which a binding is used,
and the lemmas below say what each operation does to it.
-/

namespace TermRegistry

/-! ### Names in lists -/

section

variable {α : Type} {entries : List (String × α)} {name other : String} {a : α}

theorem lookup_isSome_iff_mem :
    (entries.lookup name).isSome = true ↔ name ∈ entries.map Prod.fst := by
  rw [List.lookup_isSome_iff, List.mem_map]
  refine exists_congr fun e ↦ and_congr_right fun _ ↦ ?_
  rw [beq_iff_eq]
  exact eq_comm

theorem lookup_replace_self (h : (entries.lookup name).isSome = true) :
    (entries.map fun e ↦ if e.1 = name then (name, a) else e).lookup name = some a := by
  induction entries with
  | nil => cases h
  | cons e es ih =>
    rw [List.map_cons]
    by_cases he : e.1 = name
    · rw [if_pos he]
      exact List.lookup_cons_self
    · have hne : (name == e.1) = false := by simpa using Ne.symm he
      rw [List.lookup_cons, hne] at h
      rw [if_neg he, List.lookup_cons, hne]
      exact ih h

theorem lookup_replace_of_ne (h : other ≠ name) :
    (entries.map fun e ↦ if e.1 = name then (name, a) else e).lookup other =
      entries.lookup other := by
  induction entries with
  | nil => rfl
  | cons e es ih =>
    rw [List.map_cons, List.lookup_cons, List.lookup_cons, ih]
    by_cases he : e.1 = name
    · have hne : (other == name) = false := by simpa using h
      rw [if_pos he, he, hne]
    · rw [if_neg he]

/-- One more name of a list counts unless it is there already. -/
theorem eraseDups_concat (names : List String) (name : String) :
    (names ++ [name]).eraseDups =
      if name ∈ names then names.eraseDups else names.eraseDups ++ [name] := by
  rw [List.eraseDups_append]
  split
  · next h => simp [List.removeAll, h]
  · next h => simp [List.removeAll, List.eraseDups_cons, h]

end

/-- Terms bound to names. -/
structure Binding where
  entries : List (String × Term) := []
deriving DecidableEq, Inhabited

namespace Binding

/-- The name under which a match records the whole term. -/
def wholeName : String := ""

/-- The term bound to a name. -/
def get? (b : Binding) (name : String) : Option Term := b.entries.lookup name

/-- Whether something is bound to a name. -/
def contains (b : Binding) (name : String) : Bool := (b.get? name).isSome

/-- The number of names bound. -/
def size (b : Binding) : Nat := b.entries.length

/-- The whole term of a match. -/
def whole? (b : Binding) : Option Term := b.get? wholeName

/-- Replaces the term bound to a name that is bound already. -/
def replace (entries : List (String × Term)) (name : String) (t : Term) : List (String × Term) :=
  entries.map fun e ↦ if e.1 = name then (name, t) else e

/-- Binds a name, replacing what was bound to it before. -/
def insert (b : Binding) (name : String) (t : Term) : Binding :=
  if b.contains name then ⟨replace b.entries name t⟩ else ⟨b.entries ++ [(name, t)]⟩

/-- Binds a name unless it is bound already: the first occurrence wins. -/
def note (b : Binding) (name : String) (t : Term) : Binding :=
  if b.contains name then b else b.insert name t

/-- Binds a name unless it is bound to another term. -/
def bind? (b : Binding) (name : String) (t : Term) : Option Binding :=
  match b.get? name with
  | some bound => if bound = t then some b else none
  | none => some (b.insert name t)

/-- Adds what is bound in the second binding to names the first one does not bind. -/
def union (b c : Binding) : Binding :=
  c.entries.foldl (fun b e ↦ b.note e.1 e.2) b

/-- The binding of some pairs, of which a later one replaces an earlier one of the same name. -/
def ofList (entries : List (String × Term)) : Binding :=
  entries.foldl (fun b e ↦ b.insert e.1 e.2) {}

/-! ### The view through `get?` -/

@[simp] theorem get?_empty (name : String) : ({} : Binding).get? name = none := rfl

@[simp] theorem get?_insert_self (b : Binding) (name : String) (t : Term) :
    (b.insert name t).get? name = some t := by
  rw [insert]
  split
  · next h => exact lookup_replace_self h
  · next h =>
    have : b.entries.lookup name = none := Option.not_isSome_iff_eq_none.1 h
    rw [get?, List.lookup_append, this]
    simp

theorem get?_insert_of_ne {b : Binding} {name other : String} {t : Term} (h : other ≠ name) :
    (b.insert name t).get? other = b.get? other := by
  rw [insert]
  split
  · exact lookup_replace_of_ne h
  · have : (other == name) = false := by simpa using h
    simp [get?, List.lookup_append, List.lookup_cons, this]

theorem get?_insert (b : Binding) (name other : String) (t : Term) :
    (b.insert name t).get? other = if other = name then some t else b.get? other := by
  split
  · next h => rw [h, get?_insert_self]
  · next h => exact get?_insert_of_ne h

theorem get?_note (b : Binding) (name other : String) (t : Term) :
    (b.note name t).get? other =
      if other = name then some ((b.get? name).getD t) else b.get? other := by
  rw [note]
  split
  · next h =>
    obtain ⟨u, hu⟩ := Option.isSome_iff_exists.1 h
    split
    · next ho => rw [ho, hu]; rfl
    · rfl
  · next h =>
    have hn : b.get? name = none := by simpa [contains] using h
    rw [get?_insert, hn]
    rfl

end Binding

end TermRegistry
