/-!
# Entries and listings

A listing is an ordered list of entries, such as the parameters of a call or the statements of a
file. Each entry is positional, named, or named with a declaration type in front, and may carry
modifiers. Two forms are told apart: parameters are separated by commas, statements are each
ended by a semicolon.

All entries of a listing are named or none is. `Listing.ofEntries?` and `Listing.push?` refuse
what would break this, and `Listing.push?_uniform` says that they keep it.
-/

namespace TermRegistry

/-- How an entry is addressed: by its place, by its name, or by its name under a declaration
type. -/
inductive Label
  | positional
  | named (name : String)
  | typed (type name : String)
deriving DecidableEq, Repr, Inhabited

namespace Label

/-- The name, unless the label is positional. -/
def name? : Label → Option String
  | positional => none
  | named name | typed _ name => some name

/-- The declaration type, if there is one. -/
def type? : Label → Option String
  | typed type _ => some type
  | _ => none

end Label

/-- One entry of a listing. -/
structure Entry (α : Type) where
  label : Label
  modifiers : List String := []
  value : α
deriving DecidableEq, Repr, Inhabited

namespace Entry

variable {α : Type}

/-- The name of an entry, unless it is positional. -/
def name? (e : Entry α) : Option String := e.label.name?

/-- The declaration type of an entry, if there is one. -/
def type? (e : Entry α) : Option String := e.label.type?

end Entry

/-- The two forms in which a listing is written. -/
inductive Form
  /-- `a=1, b=2` -/
  | parameters
  /-- `a=1; b=2;` -/
  | statements
deriving DecidableEq, Repr, Inhabited

/-- An ordered list of entries and the form in which it is written. -/
structure Listing (α : Type) where
  entries : List (Entry α) := []
  form : Form := .parameters
deriving DecidableEq, Repr, Inhabited

namespace Listing

variable {α : Type}

/-! ### Views -/

/-- The number of entries. -/
def size (l : Listing α) : Nat := l.entries.length

/-- A listing without entries. -/
def isEmpty (l : Listing α) : Bool := l.entries.isEmpty

/-- **Named listings**: those whose first entry is named. -/
def isNamed (l : Listing α) : Bool := l.entries.head?.any (·.name?.isSome)

/-- **Positional listings**: those whose first entry is positional. -/
def isPositional (l : Listing α) : Bool := l.entries.head?.any (·.name?.isNone)

/-- Whether some entry has a declaration type. -/
def isTyped (l : Listing α) : Bool := l.entries.any (·.type?.isSome)

/-- Whether the listing is in statement form. -/
def isStatements (l : Listing α) : Bool := l.form == .statements

/-- The value of the first entry of a given name. -/
def get? (l : Listing α) (name : String) : Option α :=
  (l.entries.find? (·.name? == some name)).map (·.value)

/-! ### Building listings -/

/-- The same entries in statement form. -/
def toStatements (l : Listing α) : Listing α := { l with form := .statements }

/-- The form that entries call for: statements once one of them has a declaration type. -/
def formOf (entries : List (Entry α)) : Form :=
  if entries.any (·.type?.isSome) then .statements else .parameters

/-- The entries in the form that they call for. -/
def ofEntries (entries : List (Entry α)) : Listing α := ⟨entries, formOf entries⟩

/-- **Uniform entries**: all are named, or all are positional. -/
def Uniform (entries : List (Entry α)) : Prop :=
  (∀ e ∈ entries, e.name?.isSome) ∨ (∀ e ∈ entries, e.name?.isNone)

instance (entries : List (Entry α)) : Decidable (Uniform entries) :=
  inferInstanceAs (Decidable (_ ∨ _))

/-- The entries as a listing; refused when they are not uniform. -/
def ofEntries? (entries : List (Entry α)) : Option (Listing α) :=
  if Uniform entries then some (ofEntries entries) else none

/-- Whether an entry may follow those of a listing: it is named just when they are. -/
def accepts (l : Listing α) (e : Entry α) : Bool :=
  l.entries.head?.all fun first ↦ first.name?.isSome == e.name?.isSome

/-- Appends an entry, which turns the listing into statements if it has a declaration type;
refused when named and positional entries would mix. -/
def push? (l : Listing α) (e : Entry α) : Option (Listing α) :=
  if l.accepts e then
    some ⟨l.entries ++ [e], if e.type?.isSome then .statements else l.form⟩
  else none

theorem push?_entries {l l' : Listing α} {e : Entry α} (h : l.push? e = some l') :
    l'.entries = l.entries ++ [e] := by
  rw [push?] at h
  split at h
  · cases h; rfl
  · cases h

theorem push?_uniform {l l' : Listing α} {e : Entry α} (hl : Uniform l.entries)
    (h : l.push? e = some l') : Uniform l'.entries := by
  rw [push?_entries h]
  rw [push?] at h
  split at h
  case isFalse => cases h
  case isTrue ha =>
    obtain ⟨es, form⟩ := l
    cases es with
    | nil => cases hn : e.name? <;> simp [Uniform, hn]
    | cons d es =>
      simp only [accepts, List.head?_cons, Option.all_some, beq_iff_eq] at ha
      rcases hl with hl | hl
      · refine .inl fun x hx ↦ ?_
        rcases List.mem_append.1 hx with hx | hx
        · exact hl x hx
        · rw [List.mem_singleton.1 hx, ← ha]
          exact hl d List.mem_cons_self
      · refine .inr fun x hx ↦ ?_
        rcases List.mem_append.1 hx with hx | hx
        · exact hl x hx
        · have hd := hl d List.mem_cons_self
          rw [List.mem_singleton.1 hx]
          cases hn : e.name? <;> cases hm : d.name? <;> simp_all

theorem Uniform.mono {es ds : List (Entry α)} (h : Uniform es) (hs : ds ⊆ es) : Uniform ds :=
  h.imp (fun h e he ↦ h e (hs he)) fun h e he ↦ h e (hs he)

/-- Whether entries are uniform is a question about their labels. -/
theorem uniform_congr {es ds : List (Entry α)} (h : ds.map (·.label) = es.map (·.label)) :
    Uniform ds ↔ Uniform es := by
  have hlabels (gs : List (Entry α)) : Uniform gs ↔
      (∀ l ∈ gs.map (·.label), l.name?.isSome) ∨ ∀ l ∈ gs.map (·.label), l.name?.isNone := by
    rw [List.forall_mem_map, List.forall_mem_map]
    rfl
  rw [hlabels, hlabels, h]

/-- An entry without a declaration type is put behind the others, and the form stays. -/
theorem eq_of_push? {l l' : Listing α} {e : Entry α} (h : l.push? e = some l')
    (he : e.type? = none) : l' = ⟨l.entries ++ [e], l.form⟩ := by
  rw [push?, he] at h
  split at h
  · exact (Option.some.inj h).symm
  · cases h

/-- An entry may follow when all are uniform afterwards. -/
theorem accepts_of_uniform {l : Listing α} {e : Entry α} (h : Uniform (l.entries ++ [e])) :
    l.accepts e = true := by
  obtain ⟨es, form⟩ := l
  cases es with
  | nil => rfl
  | cons d es =>
    have hlast : e ∈ d :: es ++ [e] := List.mem_append_right _ (List.mem_singleton_self e)
    rw [accepts, List.head?_cons, Option.all_some, beq_iff_eq]
    rcases h with h | h
    · rw [h d List.mem_cons_self, h e hlast]
    · rw [← Option.not_isNone, ← Option.not_isNone, h d List.mem_cons_self, h e hlast]

/-- An entry is appended when all are uniform afterwards. -/
theorem push?_of_uniform {es : List (Entry α)} {e : Entry α} {form : Form}
    (h : Uniform (es ++ [e])) (he : e.type? = none) :
    push? ⟨es, form⟩ e = some ⟨es ++ [e], form⟩ := by
  rw [push?, if_pos (accepts_of_uniform h), he]
  rfl

end Listing

end TermRegistry
