import TermRegistry.Proofs.Matching.Parts

/-!
# How deep matching goes

Matching goes from a term to its parts and from a reference to the term that is stored for it.
`HeightLE resolve n t` says that no descent of this kind from `t` meets more than `n` terms. A
storage is acyclic when no name is mentioned by the term that is stored for it, however many
references are followed; a single term is free of loops when this holds of the names that are met on
the way down from it. The height of such a term is at most its size together with the weight of the
storage (`Storage.LoopFree.heightLE`): a descent leaves each stored term before it enters another,
and never comes back to one.

Each step of matching goes down on one side at least, so the bound that `Term.matching` sets on its
depth is never used up over an acyclic storage (`Matching.heights_within`).
-/

namespace TermRegistry

/-- One name is **mentioned** by the term that is stored for another. -/
def Mentions (resolve : String → Option Term) (x y : String) : Prop :=
  ∃ t, resolve x = some t ∧ y ∈ t.references

/-- **The references met** on the way down from a term: its own, and those that are met from the
terms stored for them. -/
def Reaches (resolve : String → Option Term) (t : Term) (x : String) : Prop :=
  ∃ y ∈ t.references, Relation.ReflTransGen (Mentions resolve) y x

/-- **Acyclic storages**: no name leads back to itself. -/
def Storage.Acyclic (s : Storage) : Prop :=
  ∀ x, ¬ Relation.TransGen (Mentions s.resolve) x x

/-- **Terms without loops**: no name that is met on the way down leads back to itself. -/
def Storage.LoopFree (s : Storage) (t : Term) : Prop :=
  ∀ x, Reaches s.resolve t x → ¬ Relation.TransGen (Mentions s.resolve) x x

/-- **Closed names**: the terms stored for them mention no other names. -/
def Closed (resolve : String → Option Term) (names : Set String) : Prop :=
  ∀ x ∈ names, ∀ u, resolve x = some u → ∀ y ∈ u.references, y ∈ names

/-- A descent from the term, through parts and stored terms, meets at most so many terms. -/
def HeightLE (resolve : String → Option Term) : Nat → Term → Prop
  | 0, _ => False
  | n + 1, t =>
    (∀ v ∈ t.parts, HeightLE resolve n v) ∧
      ∀ x u, t = .reference x → resolve x = some u → HeightLE resolve n u

section

variable {resolve : String → Option Term} {t u v : Term} {x y : String} {m n : Nat}

/-- A term meets its own references. -/
theorem Reaches.of_mem (h : x ∈ t.references) : Reaches resolve t x := ⟨x, h, .refl⟩

/-- What is met from a part is met from the term. -/
theorem Reaches.part (hv : v ∈ t.parts) (h : Reaches resolve v x) : Reaches resolve t x := by
  obtain ⟨y, hy, hyx⟩ := h
  exact ⟨y, Term.mem_references_of_part hv hy, hyx⟩

/-- What is met from a stored term is met from each reference to it. -/
theorem Reaches.stored (hu : resolve x = some u) (h : Reaches resolve u y) :
    Relation.TransGen (Mentions resolve) x y := by
  obtain ⟨z, hz, hzy⟩ := h
  exact .head' ⟨u, hu, hz⟩ hzy

/-- **What is met from a stored term is met from each term that meets its name.** -/
theorem Reaches.trans (h : Reaches resolve t x) (hu : resolve x = some u)
    (hy : Reaches resolve u y) : Reaches resolve t y := by
  obtain ⟨z, hz, hzx⟩ := h
  exact ⟨z, hz, hzx.trans (hy.stored hu).to_reflTransGen⟩

/-- The references met on the way down from a term are closed. -/
theorem Reaches.closed (resolve : String → Option Term) (t : Term) :
    Closed resolve {x | Reaches resolve t x} :=
  fun _ hx _ hu _ hy ↦ hx.trans hu (.of_mem hy)

/-- They are the least closed names that hold the references of the term. -/
theorem Reaches.mem_of_closed {names : Set String} (h : Reaches resolve t x)
    (hN : Closed resolve names) (ht : ∀ y ∈ t.references, y ∈ names) : x ∈ names := by
  obtain ⟨y, hy, hyx⟩ := h
  induction hyx with
  | refl => exact ht y hy
  | tail _ hstep ih =>
    obtain ⟨u, hu, hz⟩ := hstep
    exact hN _ ih u hu _ hz

namespace HeightLE

/-- A descent meets the term that it starts from. -/
theorem pos (h : HeightLE resolve n t) : 0 < n := by
  cases n with
  | zero => exact h.elim
  | succ n => exact n.succ_pos

/-- A bound on the height stays one if it is raised. -/
theorem mono (h : HeightLE resolve m t) (hmn : m ≤ n) : HeightLE resolve n t := by
  induction m generalizing n t with
  | zero => exact h.elim
  | succ m ih =>
    obtain ⟨k, rfl⟩ := Nat.exists_eq_add_of_lt hmn
    refine ⟨fun v hv ↦ ih (h.1 v hv) (Nat.le_add_right m k), fun x u ht hu ↦ ?_⟩
    exact ih (h.2 x u ht hu) (Nat.le_add_right m k)

/-- A step down to a part uses up one of the terms that may be met. -/
theorem part (h : HeightLE resolve (n + 1) t) (hv : v ∈ t.parts) : HeightLE resolve n v :=
  h.1 v hv

/-- So does a step from a reference to what is stored for it. -/
theorem stored (h : HeightLE resolve (n + 1) (.reference x)) (hu : resolve x = some u) :
    HeightLE resolve n u :=
  h.2 x u rfl hu

/-- Of two bounds on a height the smaller one is one. -/
theorem min (h : HeightLE resolve m t) (h' : HeightLE resolve n t) :
    HeightLE resolve (Min.min m n) t := by
  rcases Nat.le_total m n with hle | hle
  · rwa [Nat.min_eq_left hle]
  · rwa [Nat.min_eq_right hle]

end HeightLE

end

/-! ### The height of a term without loops -/

namespace Storage

/-- Over an acyclic storage no term has loops. -/
theorem Acyclic.loopFree {s : Storage} (hs : s.Acyclic) (t : Term) : s.LoopFree t := fun x _ ↦ hs x

/-- The parts of a term without loops have none. -/
theorem LoopFree.part {s : Storage} {t v : Term} (ht : s.LoopFree t) (hv : v ∈ t.parts) :
    s.LoopFree v :=
  fun x hx ↦ ht x (hx.part hv)

/-- The terms stored for the names that are met have none either. -/
theorem LoopFree.stored {s : Storage} {t u : Term} {x : String} (ht : s.LoopFree t)
    (hx : Reaches s.resolve t x) (hu : s.resolve x = some u) : s.LoopFree u :=
  fun y hy ↦ ht y (hx.trans hu hy)

/-- What a name is resolved to is stored under it. -/
theorem mem_of_resolve (s : Storage) {x : String} {u : Term} (h : s.resolve x = some u) :
    (x, u) ∈ s.entries := by
  have hmem {entries : List (String × Term)} (h : entries.lookup x = some u) :
      (x, u) ∈ entries := by
    obtain ⟨before, after, rfl, -⟩ := List.lookup_eq_some_iff.1 h
    exact List.mem_append_right before List.mem_cons_self
  exact hmem h

/-- Names are closed if they hold all that is mentioned anywhere in a storage. -/
theorem closed_of_entries (s : Storage) {names : List String}
    (h : ∀ e ∈ s.entries, ∀ y ∈ e.2.references, y ∈ names) :
    Closed s.resolve {x | x ∈ names} :=
  fun _ _ _ hu y hy ↦ h _ (s.mem_of_resolve hu) y hy

/-- An empty storage is acyclic. -/
theorem acyclic_empty : empty.Acyclic := by
  intro x hx
  obtain ⟨y, ⟨u, hu, -⟩, -⟩ := Relation.TransGen.head'_iff.1 hx
  cases hu

/-- A storage is acyclic if its names can be numbered downwards along what they mention. -/
theorem Acyclic.of_mentions {s : Storage} (rank : String → Nat)
    (h : ∀ x y, Mentions s.resolve x y → rank y < rank x) : s.Acyclic := by
  -- The number goes down with each name that is mentioned, so no way leads back to its start.
  have hlt {x y : String} (hxy : Relation.TransGen (Mentions s.resolve) x y) :
      rank y < rank x := by
    induction hxy with
    | single hstep => exact h _ _ hstep
    | tail _ hstep ih => exact (h _ _ hstep).trans ih
  exact fun x hx ↦ (hlt hx).false

/-- It is enough to number the names downwards along what any of its terms mentions. -/
theorem Acyclic.of_rank {s : Storage} (rank : String → Nat)
    (h : ∀ e ∈ s.entries, ∀ y ∈ e.2.references, rank y < rank e.1) : s.Acyclic :=
  .of_mentions rank fun _ y ⟨_, hu, hy⟩ ↦ h _ (s.mem_of_resolve hu) y hy

/-- The weight of the entries under certain names. -/
def weightIn (entries : List (String × Term)) (free : String → Bool) : Nat :=
  weightOf (entries.filter fun e ↦ free e.1)

variable {entries : List (String × Term)} {free : String → Bool} {x : String} {u : Term}

/-- An entry counts if its name does. -/
theorem weightIn_cons (e : String × Term) :
    weightIn (e :: entries) free = (if free e.1 then e.2.size else 0) + weightIn entries free := by
  rw [weightIn, List.filter_cons]
  split
  · rfl
  · exact (Nat.zero_add _).symm

/-- The entries under certain names weigh no more than all of them. -/
theorem weightIn_le (entries : List (String × Term)) (free : String → Bool) :
    weightIn entries free ≤ weightOf entries := by
  induction entries with
  | nil => exact Nat.le_refl 0
  | cons e es ih =>
    rw [weightIn_cons]
    show _ ≤ e.2.size + weightOf es
    split <;> omega

/-- Setting a name aside does not make the rest heavier. -/
theorem weightIn_without_le (entries : List (String × Term)) (free : String → Bool) (x : String) :
    weightIn entries (fun y ↦ free y && y != x) ≤ weightIn entries free := by
  induction entries with
  | nil => exact Nat.le_refl 0
  | cons e es ih =>
    rw [weightIn_cons, weightIn_cons]
    cases free e.1
    · simpa using ih
    · split <;> simp only [if_true] <;> omega

/-- Setting a name aside takes the term away that is stored for it. -/
theorem size_add_weightIn_le (hu : entries.lookup x = some u) (hx : free x = true) :
    u.size + weightIn entries (fun y ↦ free y && y != x) ≤ weightIn entries free := by
  induction entries with
  | nil => cases hu
  | cons e es ih =>
    obtain ⟨y, v⟩ := e
    rw [weightIn_cons, weightIn_cons]
    -- Only the first entry of the name is looked up, but all others of that name are set aside with
    -- it; they can only make the rest lighter.
    by_cases hy : x = y
    · subst hy
      obtain rfl : v = u := by simpa using hu
      have hrest := weightIn_without_le es free x
      simp only [hx, bne_self_eq_false, Bool.and_false, if_true]
      rw [if_neg Bool.false_ne_true]
      omega
    · have hrest := ih (by simpa [List.lookup_cons, beq_false_of_ne hy] using hu)
      have hne : (y != x) = true := bne_iff_ne.2 (Ne.symm hy)
      simp only [hne, Bool.and_true]
      omega

variable {s : Storage} {t : Term}

/-- The names that a descent has not been through yet bound what is left of it. -/
theorem LoopFree.heightLE_of_free (ht : s.LoopFree t) {n : Nat}
    (hn : weightIn s.entries free ≤ n) (hfree : ∀ x, Reaches s.resolve t x → free x = true) :
    HeightLE s.resolve (t.size + n) t := by
  -- Outer induction on the weight that is left, inner induction on the term.
  induction n using Nat.strong_induction_on generalizing free t with
  | h n ihn =>
    induction t using Term.induction_parts with
    | h t iht =>
      obtain ⟨k, hk⟩ := Nat.exists_eq_succ_of_ne_zero t.size_pos.ne'
      rw [hk, Nat.succ_add]
      -- To a part: it is smaller, and the names that are left are the same.
      refine ⟨fun v hv ↦ ?_, ?_⟩
      · have hsize := Term.size_lt_of_mem_parts hv
        refine (iht v hv (ht.part hv) fun x hx ↦ hfree x (hx.part hv)).mono ?_
        omega
      · rintro x u rfl hu
        -- To a stored term: its name is set aside, and is not met again, as there are no loops.
        -- What is left weighs less by the size of the term.
        have hmet : Reaches s.resolve (.reference x) x := .of_mem (Term.mem_references_self x)
        have hweight := size_add_weightIn_le hu (hfree x hmet)
        have hsize := u.size_pos
        have hrest : weightIn s.entries (fun y ↦ free y && y != x) ≤ n - u.size := by omega
        have hle := ihn (n - u.size) (by omega) (ht.stored hmet hu) hrest fun y hy ↦ by
          rw [Bool.and_eq_true, bne_iff_ne]
          refine ⟨hfree y (hmet.trans hu hy), ?_⟩
          rintro rfl
          exact ht y hmet (hy.stored hu)
        exact hle.mono (by omega)

/-- **Descents end.** No descent from a term without loops meets more terms than there are in the
term and in the storage. -/
theorem LoopFree.heightLE (ht : s.LoopFree t) : HeightLE s.resolve (t.size + s.weight) t := by
  have hweight : weightIn s.entries (fun _ ↦ true) ≤ s.weight := by
    rw [s.weight_eq]
    exact weightIn_le _ _
  exact ht.heightLE_of_free hweight fun _ _ ↦ rfl

/-- Over an acyclic storage this holds of all terms. -/
theorem Acyclic.heightLE (hs : s.Acyclic) (t : Term) :
    HeightLE s.resolve (t.size + s.weight) t :=
  (hs.loopFree t).heightLE

end Storage

/-- **The bound on the depth of a match is enough** for a pattern and a candidate whose heights are
bounded by their sizes and the weight of the storage. -/
theorem Matching.heights_within (s : Storage) (p c : Term) :
    (p.size + s.weight) + (c.size + s.weight) ≤ depthBound s p c + 1 := by
  have hp := p.size_pos
  have hc := c.size_pos
  rw [depthBound]
  -- Two positive numbers have a sum that is at most their product and one.
  nlinarith [Nat.mul_le_mul (show 1 ≤ p.size + s.weight by omega)
    (show 1 ≤ c.size + s.weight by omega)]

/-- Below the bound on the depth of a match there is room for the pattern. -/
theorem Matching.size_le_mul (s : Storage) (p c : Term) :
    p.size ≤ (p.size + s.weight) * (c.size + s.weight) := by
  have hle := Nat.mul_le_mul (Nat.le_add_right p.size s.weight)
    (c.size_pos.trans_le (Nat.le_add_right c.size s.weight))
  rwa [Nat.mul_one] at hle

/-- The bound on the depth of a match is enough for the pattern. -/
theorem Matching.size_le_depthBound (s : Storage) (p c : Term) :
    p.size ≤ depthBound s p c :=
  (size_le_mul s p c).trans (Nat.le_succ _)

end TermRegistry
