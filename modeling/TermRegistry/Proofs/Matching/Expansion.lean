import TermRegistry.Proofs.Matching.Correctness

/-!
# References are transparent to matching

The expansion of a term replaces each reference by the expansion of the term that is stored for it.
Matching follows references as it meets them, those of the pattern first, and takes a shortcut where
both sides spell the same one. `Term.matching_iff_expand` says that over an acyclic storage of tidy
terms without captures all this comes to matching the expansions.

The shortcut needs that a stored term matches itself once it is expanded
(`relates_expandWithin_self`), and there tidiness is used: of two entries with the same name only
the first one is looked at.

**Design.** The two expansions of one stored term need not be unfolded to the same number of
references, because one side may have come to it through more of them than the other. So the
lemmas on `Term.expandWithin` are about two bounds, each large enough for its side.
-/

namespace TermRegistry

namespace Term

/-! ### Replacing references -/

mutual

/-- The term with each reference in it replaced, those in internal listings included. -/
def replaceReferences (f : String → Term) : Term → Term
  | text s => text s
  | reference name => f name
  | capture name => capture name
  | array items => array (replaceReferencesAll f items)
  | listing ⟨entries, form⟩ => listing ⟨replaceReferencesEntries f entries, form⟩
  | call name ⟨entries, form⟩ none => call name ⟨replaceReferencesEntries f entries, form⟩ none
  | call name ⟨entries, form⟩ (some internal) =>
    call name ⟨replaceReferencesEntries f entries, form⟩
      (some (replaceReferencesEntries f internal))
  | rule source target => rule (source.replaceReferences f) (target.replaceReferences f)

/-- Some terms with each reference in them replaced. -/
def replaceReferencesAll (f : String → Term) : List Term → List Term
  | [] => []
  | t :: ts => t.replaceReferences f :: replaceReferencesAll f ts

/-- Some entries with each reference in their values replaced. -/
def replaceReferencesEntries (f : String → Term) : List (Entry Term) → List (Entry Term)
  | [] => []
  | ⟨label, modifiers, t⟩ :: es =>
    ⟨label, modifiers, t.replaceReferences f⟩ :: replaceReferencesEntries f es

end

/-- **Expansion** of a term, through at most so many references one inside another. -/
def expandWithin (resolve : String → Option Term) : Nat → Term → Term
  | 0, t => t
  | n + 1, t => t.replaceReferences fun name ↦
    match resolve name with
    | some stored => expandWithin resolve n stored
    | none => .reference name

end Term

/-- **Expansion** of a term over a storage. Over an acyclic storage no chain of references is longer
than there are terms to go through. -/
def Storage.expand (s : Storage) (t : Term) : Term := t.expandWithin s.resolve (t.size + s.weight)

/-! ### Listings with other values -/

namespace Listing

/-- An entry with its value changed. -/
def mapEntry (f : Term → Term) (e : Entry Term) : Entry Term := { e with value := f e.value }

/-- A listing with its values changed. -/
def mapValues (f : Term → Term) (l : Listing Term) : Listing Term :=
  { l with entries := l.entries.map (mapEntry f) }

variable {f g : Term → Term}

/-- The values of a listing are changed one by one. -/
theorem values_mapValues (l : Listing Term) : (l.mapValues f).values = l.values.map f := by
  rw [values, mapValues, values, List.map_map, List.map_map]
  rfl

theorem size_mapValues (l : Listing Term) : (l.mapValues f).size = l.size := List.length_map _

theorem isEmpty_mapValues (l : Listing Term) : (l.mapValues f).isEmpty = l.isEmpty :=
  List.isEmpty_map

theorem isNamed_mapValues (l : Listing Term) : (l.mapValues f).isNamed = l.isNamed := by
  obtain ⟨es, form⟩ := l
  cases es <;> rfl

/-- What is found under a name is changed. -/
theorem get?_mapValues (l : Listing Term) (name : String) :
    (l.mapValues f).get? name = (l.get? name).map f := by
  show ((l.entries.map (mapEntry f)).find? _).map _ = ((l.entries.find? _).map _).map f
  rw [List.find?_map, Option.map_map, Option.map_map]
  rfl

/-- Entries are put beside those of their name, whatever becomes of the values. -/
theorem besideNamed_mapValues (c : Listing Term) (es : List (Entry Term)) :
    besideNamed (c.mapValues g) (es.map (mapEntry f)) =
      (besideNamed c es).map (List.map (Prod.map f g)) := by
  induction es with
  | nil => rfl
  | cons e es ih =>
    rw [List.map_cons, besideNamed, besideNamed, ih, get?_mapValues]
    show ((c.get? (e.name?.getD "")).map g).bind _ = _
    cases c.get? (e.name?.getD "") with
    | none => rfl
    | some v => cases besideNamed c es <;> rfl

/-- **Pairing does not look at values.** -/
theorem pairing_mapValues (p c : Listing Term) : (p.mapValues f).pairing (c.mapValues g) =
    (p.pairing c).map (List.map (Prod.map f g)) := by
  simp only [pairing, size_mapValues, isEmpty_mapValues, isNamed_mapValues]
  split
  · rfl
  · split
    · rfl
    · split
      · rfl
      · split
        · exact besideNamed_mapValues c p.entries
        · rw [values_mapValues, values_mapValues, List.zip_map]
          rfl

end Listing

/-! ### Terms with their references replaced -/

namespace Term

variable {f g : String → Term} {p c t : Term}

theorem replaceReferencesAll_eq (f : String → Term) (ts : List Term) :
    replaceReferencesAll f ts = ts.map (replaceReferences f) := by
  induction ts with
  | nil => rfl
  | cons t ts ih => rw [replaceReferencesAll, ih, List.map_cons]

theorem replaceReferencesEntries_eq (f : String → Term) (es : List (Entry Term)) :
    replaceReferencesEntries f es = es.map (Listing.mapEntry (replaceReferences f)) := by
  induction es with
  | nil => rfl
  | cons e es ih =>
    rw [replaceReferencesEntries, ih, List.map_cons]
    rfl

/-- In an array, references are replaced item by item. -/
theorem replaceReferences_array (items : List Term) :
    (array items).replaceReferences f = array (items.map (replaceReferences f)) :=
  congrArg array (replaceReferencesAll_eq f items)

/-- In a listing, they are replaced value by value. -/
theorem replaceReferences_listing (l : Listing Term) :
    (listing l).replaceReferences f = listing (l.mapValues (replaceReferences f)) := by
  rw [replaceReferences, replaceReferencesEntries_eq]
  rfl

/-- In a call, they are replaced in the parameters and in the internal listing. -/
theorem replaceReferences_call (name : String) (l : Listing Term)
    (internal : Option (List (Entry Term))) :
    (call name l internal).replaceReferences f =
      call name (l.mapValues (replaceReferences f))
        (internal.map (List.map (Listing.mapEntry (replaceReferences f)))) := by
  cases internal with
  | none =>
    rw [replaceReferences, replaceReferencesEntries_eq]
    rfl
  | some es =>
    rw [replaceReferences, replaceReferencesEntries_eq, replaceReferencesEntries_eq]
    rfl

/-- What is neither a reference nor a capture stays so. -/
theorem isConcrete_replaceReferences (h : t.isConcrete = true) :
    (t.replaceReferences f).isConcrete = true := by
  cases t with
  | reference | capture => cases h
  | call name l internal =>
    rw [replaceReferences_call]
    rfl
  | _ => rfl

mutual

/-- Where no reference is replaced by a term with captures, captures stay as they are. -/
theorem hasCapture_replaceReferences (hf : ∀ x, (f x).hasCapture = false) :
    (t : Term) → (t.replaceReferences f).hasCapture = t.hasCapture
  | text _ => rfl
  | reference name => hf name
  | capture _ => rfl
  | array items => anyCapture_replaceReferencesAll hf items
  | listing ⟨entries, _⟩ => anyEntryCapture_replaceReferencesEntries hf entries
  | call _ ⟨entries, _⟩ none => anyEntryCapture_replaceReferencesEntries hf entries
  | call _ ⟨entries, _⟩ (some internal) =>
    congrArg₂ _ (anyEntryCapture_replaceReferencesEntries hf entries)
      (anyEntryCapture_replaceReferencesEntries hf internal)
  | rule source target =>
    congrArg₂ _ (hasCapture_replaceReferences hf source) (hasCapture_replaceReferences hf target)

theorem anyCapture_replaceReferencesAll (hf : ∀ x, (f x).hasCapture = false) :
    (ts : List Term) → anyCapture (replaceReferencesAll f ts) = anyCapture ts
  | [] => rfl
  | t :: ts =>
    congrArg₂ _ (hasCapture_replaceReferences hf t) (anyCapture_replaceReferencesAll hf ts)

theorem anyEntryCapture_replaceReferencesEntries (hf : ∀ x, (f x).hasCapture = false) :
    (es : List (Entry Term)) → anyEntryCapture (replaceReferencesEntries f es) = anyEntryCapture es
  | [] => rfl
  | ⟨_, _, t⟩ :: es =>
    congrArg₂ _ (hasCapture_replaceReferences hf t)
      (anyEntryCapture_replaceReferencesEntries hf es)

end

/-- An array pattern fits the same arrays, unless captures are put in. -/
theorem fits_replaceReferences (hf : ∀ x, (f x).hasCapture = false) (ps cs : List Term) :
    Matching.fits (ps.map (replaceReferences f)) (cs.map (replaceReferences g)) =
      Matching.fits ps cs := by
  rw [Matching.fits, Matching.fits, List.length_map, List.length_map, ← replaceReferencesAll_eq,
    anyCapture_replaceReferencesAll hf]

/-- **What is paired stays paired** when references are replaced on either side. -/
theorem pairing_replaceReferences (hf : ∀ x, (f x).hasCapture = false)
    (hp : p.isConcrete = true) (hc : c.isConcrete = true) :
    (p.replaceReferences f).pairing (c.replaceReferences g) =
      (p.pairing c).map (List.map (Prod.map (replaceReferences f) (replaceReferences g))) := by
  -- Kind by kind: the kinds on the two sides stay as they are, and so does what is compared in
  -- them.
  cases p with
  | reference | capture => cases hp
  | text s =>
    cases c with
    | reference | capture => cases hc
    | text t =>
      simp only [replaceReferences, pairing]
      split <;> rfl
    | call =>
      rw [replaceReferences_call]
      rfl
    | _ => rfl
  | array ps =>
    cases c with
    | reference | capture => cases hc
    | array cs =>
      rw [replaceReferences_array, replaceReferences_array, pairing, pairing,
        fits_replaceReferences hf, List.zip_map]
      split <;> rfl
    | call =>
      rw [replaceReferences_call]
      rfl
    | _ => rfl
  | listing l =>
    cases c with
    | reference | capture => cases hc
    | listing l' =>
      rw [replaceReferences_listing, replaceReferences_listing]
      exact Listing.pairing_mapValues l l'
    | call =>
      rw [replaceReferences_call]
      rfl
    | _ => rfl
  | call name l internal =>
    rw [replaceReferences_call]
    cases c with
    | reference | capture => cases hc
    | call name' l' internal' =>
      rw [replaceReferences_call, pairing, pairing]
      split
      · exact Listing.pairing_mapValues l l'
      · rfl
    | _ => rfl
  | rule s t =>
    cases c with
    | reference | capture => cases hc
    | call =>
      rw [replaceReferences_call]
      rfl
    | _ => rfl

/-! ### Expansion -/

variable {resolve : String → Option Term} {m n k l : Nat} {u : Term} {name : String}

/-- The references at the bound of an expansion are replaced by what is stored for them. -/
def expandReference (resolve : String → Option Term) (n : Nat) (name : String) : Term :=
  match resolve name with
  | some stored => stored.expandWithin resolve n
  | none => .reference name

/-- An expansion replaces all references at once, by what is stored for them. -/
theorem expandWithin_succ (resolve : String → Option Term) (n : Nat) (t : Term) :
    t.expandWithin resolve (n + 1) = t.replaceReferences (expandReference resolve n) := rfl

/-- A reference is expanded like what is stored for it, one level less. -/
theorem expandWithin_reference (hu : resolve name = some u) :
    (reference name).expandWithin resolve (n + 1) = u.expandWithin resolve n := by
  show expandReference resolve n name = _
  rw [expandReference, hu]

/-- Over a storage without captures, expansion brings none. -/
theorem hasCapture_expandWithin (hfree : ∀ x u, resolve x = some u → u.hasCapture = false)
    (n : Nat) (t : Term) : (t.expandWithin resolve n).hasCapture = t.hasCapture := by
  induction n generalizing t with
  | zero => rfl
  | succ n ih =>
    rw [expandWithin_succ]
    refine hasCapture_replaceReferences (fun x ↦ ?_) t
    rw [expandReference]
    split
    · next u hu => rw [ih, hfree x u hu]
    · rfl

theorem isConcrete_expandWithin (h : t.isConcrete = true) :
    (t.expandWithin resolve n).isConcrete = true := by
  cases n with
  | zero => exact h
  | succ n => exact isConcrete_replaceReferences h

/-- **What is paired is paired after expansion.** -/
theorem pairing_expandWithin (hfree : ∀ x u, resolve x = some u → u.hasCapture = false)
    (hp : p.isConcrete = true) (hc : c.isConcrete = true) :
    (p.expandWithin resolve (m + 1)).pairing (c.expandWithin resolve (n + 1)) =
      (p.pairing c).map
        (List.map (Prod.map (expandWithin resolve (m + 1)) (expandWithin resolve (n + 1)))) := by
  refine pairing_replaceReferences (fun x ↦ ?_) hp hc
  exact hasCapture_expandWithin hfree (m + 1) (reference x)

end Term

/-! ### Matching expansions -/

section

variable {resolve σ : String → Option Term} {p c t : Term} {N : Set String} {k l m n : Nat}

/-- **What an expanded term matches**: itself, expanded as far or farther. -/
theorem relates_expandWithin_self (hN : Closed resolve N)
    (hstored : ∀ x ∈ N, ∃ u, resolve x = some u)
    (hfree : ∀ x u, resolve x = some u → u.hasCapture = false)
    (htidy : ∀ x u, resolve x = some u → u.IsTidy) (ht : t.hasCapture = false) (htt : t.IsTidy)
    (htN : ∀ x ∈ t.references, x ∈ N) (hk : HeightLE resolve k t) (hm : k ≤ m) (hn : k ≤ n) :
    Relates nothing σ (t.expandWithin resolve m) (t.expandWithin resolve n) := by
  induction k generalizing t m n with
  | zero => exact hk.elim
  | succ k ih =>
    obtain ⟨m, rfl⟩ := Nat.exists_eq_add_of_lt hm
    obtain ⟨n, rfl⟩ := Nat.exists_eq_add_of_lt hn
    -- A reference is the same on both sides, and is followed on both.
    cases hconcrete : t.isConcrete with
    | false =>
      obtain ⟨name, rfl⟩ := Term.eq_reference_of_not_isConcrete hconcrete ht
      have hname : name ∈ N := htN name (Term.mem_references_self name)
      obtain ⟨u, hu⟩ := hstored name hname
      rw [Term.expandWithin_reference hu, Term.expandWithin_reference hu]
      exact ih (hfree name u hu) (htidy name u hu) (hN name hname u hu) (hk.stored hu)
        (Nat.le_add_right k m) (Nat.le_add_right k n)
    | true =>
      have hpairs := Term.pairing_expandWithin (m := k + m) (n := k + n) hfree hconcrete hconcrete
      rw [Term.pairing_self hconcrete htt.entries.1 htt.unambiguous] at hpairs
      refine .parts hpairs fun d hd ↦ ?_
      obtain ⟨_, hself, rfl⟩ := List.mem_map.1 hd
      obtain ⟨v, hv, rfl⟩ := List.mem_map.1 hself
      exact ih (Term.hasCapture_part ht hv) (htt.part hv)
        (fun x hx ↦ htN x (Term.mem_references_of_part hv hx)) (hk.part hv) (by omega) (by omega)

/-- **References are transparent** to the relation: it holds of two terms just when it holds of
their expansions, without a storage. -/
theorem relates_expandWithin (hN : Closed resolve N)
    (hstored : ∀ x ∈ N, ∃ u, resolve x = some u)
    (hfree : ∀ x u, resolve x = some u → u.hasCapture = false)
    (htidy : ∀ x u, resolve x = some u → u.IsTidy)
    (hp : p.hasCapture = false) (hc : c.hasCapture = false)
    (hpN : ∀ x ∈ p.references, x ∈ N) (hcN : ∀ x ∈ c.references, x ∈ N)
    (hk : HeightLE resolve k p) (hl : HeightLE resolve l c) (hm : k ≤ m) (hn : l ≤ n) :
    Relates resolve σ p c ↔
      Relates nothing σ (p.expandWithin resolve m) (c.expandWithin resolve n) := by
  -- Each case goes down on one side at least, so the sum of the heights decreases.
  induction hsum : k + l using Nat.strong_induction_on generalizing p c k l m n with
  | h total ih =>
    subst hsum
    obtain ⟨k, rfl⟩ := Nat.exists_eq_succ_of_ne_zero hk.pos.ne'
    obtain ⟨l, rfl⟩ := Nat.exists_eq_succ_of_ne_zero hl.pos.ne'
    obtain ⟨m, rfl⟩ := Nat.exists_eq_add_of_lt hm
    obtain ⟨n, rfl⟩ := Nat.exists_eq_add_of_lt hn
    cases hpc : p.isConcrete with
    | false =>
      obtain ⟨name, rfl⟩ := Term.eq_reference_of_not_isConcrete hpc hp
      have hname : name ∈ N := hpN name (Term.mem_references_self name)
      obtain ⟨u, hu⟩ := hstored name hname
      have hrest := ih (k + (l + 1)) (by omega) (hfree name u hu) hc (hN name hname u hu) hcN
        (hk.stored hu) hl (Nat.le_add_right k m) hn rfl
      constructor
      · intro h
        rcases Relates.reference_iff.1 h with rfl | ⟨u', hu', h⟩
        · refine relates_expandWithin_self hN hstored hfree htidy rfl
            (Term.isTidy_reference name) hpN (hk.min hl) ?_ ?_
          · exact (min_le_left _ _).trans hm
          · exact (min_le_right _ _).trans hn
        · obtain rfl : u = u' := Option.some.inj (hu.symm.trans hu')
          rw [Term.expandWithin_reference hu]
          exact hrest.1 h
      · intro h
        rw [Term.expandWithin_reference hu] at h
        exact .stored hu (hrest.2 h)
    | true =>
      cases hcc : c.isConcrete with
      | false =>
        obtain ⟨name, rfl⟩ := Term.eq_reference_of_not_isConcrete hcc hc
        have hname : name ∈ N := hcN name (Term.mem_references_self name)
        obtain ⟨u, hu⟩ := hstored name hname
        have hrest := ih (k + 1 + l) (by omega) hp (hfree name u hu) hpN (hN name hname u hu) hk
          (hl.stored hu) hm (Nat.le_add_right l n) rfl
        rw [Term.expandWithin_reference hu, ← hrest, Relates.followed_iff hpc, hu]
        exact ⟨fun ⟨_, hu', h⟩ ↦ Option.some.inj hu' ▸ h, fun h ↦ ⟨u, rfl, h⟩⟩
      | true =>
        have hpairs := Term.pairing_expandWithin (m := k + m) (n := l + n) hfree hpc hcc
        have hpart (ds : List (Term × Term)) (hds : p.pairing c = some ds) (d : Term × Term)
            (hd : d ∈ ds) : Relates resolve σ d.1 d.2 ↔
              Relates nothing σ (d.1.expandWithin resolve (k + m + 1))
                (d.2.expandWithin resolve (l + n + 1)) := by
          obtain ⟨h₁, h₂⟩ := Term.mem_parts_of_pairing hds hd
          exact ih (k + l) (by omega) (Term.hasCapture_part hp h₁) (Term.hasCapture_part hc h₂)
            (fun x hx ↦ hpN x (Term.mem_references_of_part h₁ hx))
            (fun x hx ↦ hcN x (Term.mem_references_of_part h₂ hx)) (hk.part h₁) (hl.part h₂)
            (by omega) (by omega) rfl
        rw [Relates.parts_iff hpc (Term.reference?_of_isConcrete hcc),
          Relates.parts_iff (Term.isConcrete_expandWithin hpc)
            (Term.reference?_of_isConcrete (Term.isConcrete_expandWithin hcc))]
        constructor
        · rintro ⟨ds, hds, h⟩
          refine ⟨_, hpairs.trans (congrArg _ hds), fun e he ↦ ?_⟩
          obtain ⟨d, hd, rfl⟩ := List.mem_map.1 he
          exact (hpart ds hds d hd).1 (h d hd)
        · rintro ⟨ds', hds', h⟩
          obtain ⟨ds, hds, rfl⟩ := Option.map_eq_some_iff.1 (hpairs.symm.trans hds')
          exact ⟨ds, hds, fun d hd ↦ (hpart ds hds d hd).2 (h _ (List.mem_map_of_mem hd))⟩

end

/-- **References are transparent to matching.** Over an acyclic storage of tidy terms without
captures, take two terms without captures whose references, and those met from them, are all stored.
One matches the other just when their expansions match with nothing stored. -/
theorem Term.matching_iff_expand (s : Storage) (p c : Term) (hs : s.Acyclic)
    (hfree : ∀ x u, s.resolve x = some u → u.hasCapture = false)
    (htidy : ∀ x u, s.resolve x = some u → u.IsTidy)
    (hp : p.hasCapture = false) (hc : c.hasCapture = false)
    (hpstored : ∀ x, Reaches s.resolve p x → ∃ u, s.resolve x = some u)
    (hcstored : ∀ x, Reaches s.resolve c x → ∃ u, s.resolve x = some u) :
    (∃ b, Term.matching s p c = .ok (some b)) ↔
      ∃ b, Term.matching .empty (s.expand p) (s.expand c) = .ok (some b) := by
  let N : Set String := {x | Reaches s.resolve p x ∨ Reaches s.resolve c x}
  have hN : Closed s.resolve N := fun x hx u hu y hy ↦
    hx.imp (fun h ↦ h.trans hu (.of_mem hy)) fun h ↦ h.trans hu (.of_mem hy)
  have hstored : ∀ x ∈ N, ∃ u, s.resolve x = some u :=
    fun x hx ↦ hx.elim (hpstored x) (hcstored x)
  have hpN : ∀ x ∈ p.references, x ∈ N := fun x hx ↦ .inl (.of_mem hx)
  have hcN : ∀ x ∈ c.references, x ∈ N := fun x hx ↦ .inr (.of_mem hx)
  have hplain : Plain s.resolve N := ⟨hN, fun x _ u hu ↦ captures_eq_nil u (hfree x u hu)⟩
  have hexpanded : (s.expand p).hasCapture = false := (hasCapture_expandWithin hfree _ p).trans hp
  have hover : (∃ b, Term.matching s p c = .ok (some b)) ↔ Relates s.resolve nothing p c :=
    matching_iff_relates hs hplain hpN (captures_eq_nil p hp)
  have hempty : (∃ b, Term.matching .empty (s.expand p) (s.expand c) = .ok (some b)) ↔
      Relates Storage.empty.resolve nothing (s.expand p) (s.expand c) :=
    matching_iff_relates (N := Set.univ) Storage.acyclic_empty ⟨nofun, nofun⟩ (fun _ _ ↦ trivial)
      (captures_eq_nil _ hexpanded)
  rw [hover, hempty]
  exact relates_expandWithin hN hstored hfree htidy hp hc hpN hcN (hs.heightLE p) (hs.heightLE c)
    le_rfl le_rfl

/-- Two references of which one stands for the other. -/
theorem Term.matching_iff_expand_chain :
    ∃ b, Term.matching (.ofList [("x", .reference "y"), ("y", .text "1")])
      (.array [.reference "x"]) (.array [.reference "y"]) = .ok (some b) := by
  let s : Storage := .ofList [("x", .reference "y"), ("y", .text "1")]
  have hN : Closed s.resolve {x | x ∈ ["x", "y"]} := s.closed_of_entries (by decide)
  have hstored (t : Term) (ht : ∀ x ∈ t.references, x ∈ ["x", "y"]) (x : String)
      (hx : Reaches s.resolve t x) : ∃ u, s.resolve x = some u :=
    Option.isSome_iff_exists.1
      ((by decide : ∀ x ∈ ["x", "y"], (s.resolve x).isSome = true) x (hx.mem_of_closed hN ht))
  refine (Term.matching_iff_expand s (.array [.reference "x"]) (.array [.reference "y"])
    (.of_rank (fun x ↦ if x = "x" then 1 else 0) (by decide)) (fun x u hu ↦ ?_) (fun x u hu ↦ ?_)
    rfl rfl (hstored _ (by decide)) (hstored _ (by decide))).2 ⟨_, rfl⟩
  · exact (by decide : ∀ e ∈ s.entries, e.2.hasCapture = false) _ (s.mem_of_resolve hu)
  · exact (by decide : ∀ e ∈ s.entries, e.2.IsTidy) _ (s.mem_of_resolve hu)

end TermRegistry
