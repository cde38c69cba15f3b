import TermRegistry.Proofs.Matching.Expansion
import TermRegistry.Proofs.Matching.Reordering

/-!
# Matching as a preorder

Ground terms have no captures and no references, and no listing in them has a name twice. On them
matching is reflexive and transitive, and two of them match each other just when they have the same
content: when their cores are equal up to the order of named entries (`Term.matches_preorder`). The
core of a term is what is left of it without internal listings, forms of listings, declaration types
and modifiers.

**Design.** A term and its core match each other, so by transitivity it is enough that reordered
cores match, which is an instance of `Relates.reorder_candidate`. For the other direction the two
pairings of listings that are found in each other are turned into a list of entries that stand side
by side (`Listing.exists_beside`): neither listing has an entry to spare, and for named ones the
distinctness of their names turns this count into a rearrangement.
-/

namespace TermRegistry

/-! ### Bare entries -/

/-- A label without its declaration type. -/
def Label.bare : Label → Label
  | positional => positional
  | named name | typed _ name => named name

/-- A label keeps its name. -/
theorem Label.name?_bare (l : Label) : l.bare.name? = l.name? := by
  cases l <;> rfl

/-- What is left of a label is its name. -/
theorem Label.bare_eq_of_name? {l k : Label} (h : l.name? = k.name?) : l.bare = k.bare := by
  cases l <;> cases k <;> cases h <;> rfl

/-- An entry without declaration type and modifiers. -/
def Entry.bare (e : Entry Term) : Entry Term := ⟨e.label.bare, [], e.value⟩

/-- An entry keeps its name. -/
theorem Entry.name?_bare (e : Entry Term) : e.bare.name? = e.name? := e.label.name?_bare

namespace Listing

/-- A listing as parameters, without declaration types and modifiers. -/
def bare (l : Listing Term) : Listing Term := ⟨l.entries.map Entry.bare, .parameters⟩

theorem size_bare (l : Listing Term) : l.bare.size = l.size := List.length_map _

theorem isEmpty_bare (l : Listing Term) : l.bare.isEmpty = l.isEmpty := List.isEmpty_map

/-- A listing stays as named as it is. -/
theorem isNamed_bare (l : Listing Term) : l.bare.isNamed = l.isNamed := by
  obtain ⟨es, form⟩ := l
  cases es with
  | nil => rfl
  | cons e es => exact congrArg Option.isSome e.name?_bare

/-- A listing keeps its values. -/
theorem values_bare (l : Listing Term) : l.bare.values = l.values := by
  rw [values, bare, values, List.map_map]
  rfl

/-- What is found under a name stays the same. -/
theorem get?_bare (l : Listing Term) (name : String) : l.bare.get? name = l.get? name := by
  have hname : ((·.name? == some name) : Entry Term → Bool) ∘ Entry.bare = (·.name? == some name) :=
    funext fun e ↦ congrArg (· == some name) e.name?_bare
  rw [get?, bare, List.find?_map, Option.map_map, hname]
  rfl

/-- Entries are put beside those of their name, bare or not. -/
theorem besideNamed_map_bare (c : Listing Term) (es : List (Entry Term)) :
    besideNamed c (es.map Entry.bare) = besideNamed c es := by
  induction es with
  | nil => rfl
  | cons e es ih =>
    rw [List.map_cons, besideNamed, besideNamed, ih, Entry.name?_bare]
    rfl

/-- So they are if the entries they are put beside are bare. -/
theorem besideNamed_bare (c : Listing Term) (es : List (Entry Term)) :
    besideNamed c.bare es = besideNamed c es := by
  induction es with
  | nil => rfl
  | cons e es ih => rw [besideNamed, besideNamed, ih, get?_bare]

/-- Distinct entries stay so when each is changed but for its name. -/
theorem Distinct.map {es : List (Entry Term)} {f : Entry Term → Entry Term} (h : Distinct es)
    (hf : ∀ e, (f e).name? = e.name?) : Distinct (es.map f) := by
  refine ⟨h.1.imp (fun hnamed ↦ ?_) fun hpositional ↦ ?_, ?_⟩
  · rw [List.forall_mem_map]
    exact fun e he ↦ (hf e).symm ▸ hnamed e he
  · rw [List.forall_mem_map]
    exact fun e he ↦ (hf e).symm ▸ hpositional e he
  · have hnames : ((·.name?) : Entry Term → Option String) ∘ f = (·.name?) := funext hf
    rw [List.filterMap_map, hnames]
    exact h.2

/-- **Pairing looks at names and values only**, in the pattern. -/
theorem pairing_bare_left (p c : Listing Term) : p.bare.pairing c = p.pairing c := by
  rw [pairing, size_bare, isEmpty_bare, isNamed_bare, values_bare, bare, besideNamed_map_bare]
  rfl

/-- **Pairing looks at names and values only**, in the candidate. -/
theorem pairing_bare_right (p c : Listing Term) : p.pairing c.bare = p.pairing c := by
  rw [pairing, size_bare, isNamed_bare, values_bare, besideNamed_bare]
  rfl

end Listing

/-! ### The core of a term -/

namespace Term

mutual

/-- **The core of a term**: it without internal listings, forms of listings, declaration types and
modifiers, at any depth. -/
def core : Term → Term
  | text s => text s
  | reference name => reference name
  | capture name => capture name
  | array items => array (coreAll items)
  | listing ⟨entries, _⟩ => listing ⟨coreEntries entries, .parameters⟩
  | call name ⟨entries, _⟩ _ => call name ⟨coreEntries entries, .parameters⟩ none
  | rule source target => rule source.core target.core

/-- The cores of some terms. -/
def coreAll : List Term → List Term
  | [] => []
  | t :: ts => t.core :: coreAll ts

/-- Bare entries with the cores of their values. -/
def coreEntries : List (Entry Term) → List (Entry Term)
  | [] => []
  | ⟨label, _, t⟩ :: es => ⟨label.bare, [], t.core⟩ :: coreEntries es

end

/-- A bare entry with the core of its value. -/
def coreEntry (e : Entry Term) : Entry Term := (Listing.mapEntry core e).bare

theorem coreAll_eq (ts : List Term) : coreAll ts = ts.map core := by
  induction ts with
  | nil => rfl
  | cons t ts ih => rw [coreAll, ih, List.map_cons]

theorem coreEntries_eq (es : List (Entry Term)) : coreEntries es = es.map coreEntry := by
  induction es with
  | nil => rfl
  | cons e es ih =>
    rw [coreEntries, ih, List.map_cons]
    rfl

/-- The core of an array has the cores of its items. -/
theorem core_array (items : List Term) : (array items).core = array (items.map core) :=
  congrArg array (coreAll_eq items)

/-- The core of a listing is a bare listing of cores. -/
theorem core_listing (l : Listing Term) : (listing l).core = listing (l.mapValues core).bare := by
  rw [core, coreEntries_eq, Listing.bare, Listing.mapValues, List.map_map]
  rfl

/-- The core of a call has bare parameters, and no internal listing. -/
theorem core_call (name : String) (l : Listing Term) (internal : Option (List (Entry Term))) :
    (call name l internal).core = call name (l.mapValues core).bare none := by
  rw [core, coreEntries_eq, Listing.bare, Listing.mapValues, List.map_map]
  rfl

variable {t : Term}

/-- **The parts of a core are the cores of the parts.** -/
theorem parts_core (t : Term) : t.core.parts = t.parts.map core := by
  have hvalues (l : Listing Term) : (l.mapValues core).bare.values = l.values.map core := by
    rw [Listing.values_bare, Listing.values_mapValues]
  cases t with
  | array items => rw [core_array, parts, parts]
  | listing l => rw [core_listing, parts, parts, hvalues]
  | call name l internal => rw [core_call, parts, parts, hvalues]
  | text | reference | capture | rule => rfl

/-- The entries of a core are bare entries of cores. -/
theorem entries_core (t : Term) : t.core.entries = t.entries.map coreEntry := by
  cases t with
  | listing l =>
    rw [core, coreEntries_eq]
    rfl
  | call name l internal =>
    rw [core, coreEntries_eq]
    rfl
  | _ => rfl

theorem name?_coreEntry (e : Entry Term) : (coreEntry e).name? = e.name? :=
  Entry.name?_bare (Listing.mapEntry core e)

theorem distinct_coreEntries {es : List (Entry Term)} (h : Listing.Distinct es) :
    Listing.Distinct (es.map coreEntry) :=
  h.map name?_coreEntry

/-- No name is added to a listing, so cores of tidy terms are tidy. -/
theorem isTidy_core (h : t.IsTidy) : t.core.IsTidy := by
  induction t using induction_parts with
  | h t ih =>
    rw [isTidy_iff, entries_core, parts_core, List.forall_mem_map]
    exact ⟨distinct_coreEntries h.entries, fun v hv ↦ ih v hv (h.part hv)⟩

/-- The core of a term without captures has none. -/
theorem hasCapture_core (h : t.hasCapture = false) : t.core.hasCapture = false := by
  induction t using induction_parts with
  | h t ih =>
    -- What is left of a term is made of its parts, which have no captures either.
    have hparts (v : Term) (hv : v ∈ t.parts) : v.core.hasCapture = false :=
      ih v hv (hasCapture_part h hv)
    have hentries {es : List (Entry Term)}
        (hes : ∀ v ∈ es.map (·.value), v.core.hasCapture = false) :
        anyEntryCapture (coreEntries es) = false := by
      rw [coreEntries_eq, anyEntryCapture_eq, List.any_map, List.any_eq_false]
      exact fun e he ↦ Bool.eq_false_iff.1 (hes e.value (List.mem_map_of_mem he))
    cases t with
    | text | reference => rfl
    | capture => exact h
    | array items =>
      rw [core_array, hasCapture, anyCapture_eq, List.any_map, List.any_eq_false]
      exact fun v hv ↦ Bool.eq_false_iff.1 (hparts v hv)
    | listing | call => exact hentries hparts
    | rule source target =>
      rw [core, hasCapture, hparts source List.mem_cons_self,
        hparts target (List.mem_cons_of_mem _ List.mem_cons_self)]
      rfl

/-- The core of a term without references has none. -/
theorem references_core (h : t.references = []) : t.core.references = [] := by
  refine List.eq_nil_iff_forall_not_mem.2 ?_
  induction t using induction_parts with
  | h t ih =>
    intro x hx
    -- A reference in the core would be in the core of a part, which has none by induction.
    rcases mem_references_cases hx with hreference | ⟨w, hw, hx⟩
    · cases t with
      | reference => cases h
      | _ => cases hreference
    · rw [parts_core] at hw
      obtain ⟨v, hv, rfl⟩ := List.mem_map.1 hw
      refine ih v hv (List.eq_nil_iff_forall_not_mem.2 fun y hy ↦ ?_) x hx
      exact List.eq_nil_iff_forall_not_mem.1 h y (mem_references_of_part hv hy)

/-! ### Ground terms -/

/-- **Ground terms** have no captures and no references, and no listing in them has a name twice.
What internal listings hold besides captures does not matter. -/
structure IsGround (t : Term) : Prop where
  captureFree : t.hasCapture = false
  references : t.references = []
  tidy : t.IsTidy

namespace IsGround

variable {v : Term}

/-- **What ground terms consist of is ground**, so an induction on parts stays among them. -/
theorem part (h : t.IsGround) (hv : v ∈ t.parts) : v.IsGround where
  captureFree := hasCapture_part h.captureFree hv
  references := List.eq_nil_iff_forall_not_mem.2 fun _ hx ↦
    List.eq_nil_iff_forall_not_mem.1 h.references _ (mem_references_of_part hv hx)
  tidy := h.tidy.part hv

/-- A ground term is no reference and no capture, so matching looks at its shape alone. -/
theorem isConcrete (h : t.IsGround) : t.isConcrete = true := by
  cases t with
  | reference name => cases h.references
  | capture name => cases h.captureFree
  | _ => rfl

theorem reference? (h : t.IsGround) : t.reference? = none := reference?_of_isConcrete h.isConcrete

/-- The core of a ground term is ground. -/
theorem core (h : t.IsGround) : t.core.IsGround where
  captureFree := hasCapture_core h.captureFree
  references := references_core h.references
  tidy := isTidy_core h.tidy

end IsGround

end Term

/-! ### Transitivity -/

namespace Listing

variable {p q r : Listing Term} {ds ds' : List (Term × Term)}

/-- A pattern is paired with candidates that are not shorter. -/
theorem size_le_of_pairing (h : p.pairing q = some ds) : p.size ≤ q.size := by
  rcases pairing_cases h with ⟨hnil, -⟩ | ⟨hsize, -⟩
  · rw [size, hnil]
    exact Nat.zero_le _
  · exact hsize

theorem entries_eq_nil_of_size_le (h : p.size ≤ q.size) (hq : q.entries = []) : p.entries = [] :=
  List.eq_nil_of_length_eq_zero (Nat.le_zero.1 (h.trans_eq (congrArg List.length hq)))

/-- What stands in the same place of two lists stands beside an item of a list in between. -/
theorem exists_mem_zip_of_mem_zip {ps qs rs : List Term} (h : ps.length ≤ qs.length)
    {d : Term × Term} (hd : d ∈ ps.zip rs) : ∃ m, (d.1, m) ∈ ps.zip qs ∧ (m, d.2) ∈ qs.zip rs := by
  induction ps generalizing qs rs with
  | nil => cases hd
  | cons p ps ih =>
    cases qs with
    | nil => cases h
    | cons q qs =>
      cases rs with
      | nil => cases hd
      | cons r rs =>
        rcases List.mem_cons.1 hd with rfl | hd
        · exact ⟨q, List.mem_cons_self, List.mem_cons_self⟩
        · obtain ⟨m, hm, hm'⟩ := ih (Nat.le_of_succ_le_succ h) hd
          exact ⟨m, List.mem_cons_of_mem _ hm, List.mem_cons_of_mem _ hm'⟩

/-- **Pairings compose**: what is paired through a third listing is paired directly. -/
theorem pairing_trans (h : p.pairing q = some ds) (h' : q.pairing r = some ds') :
    ∃ ds'', p.pairing r = some ds'' ∧ ∀ d ∈ ds'', ∃ m, (d.1, m) ∈ ds ∧ (m, d.2) ∈ ds' := by
  -- An empty pattern is paired with everything, so what is left are listings with as many values or
  -- more, and all three are as named as the first.
  rcases pairing_cases h with ⟨hnil, -⟩ | ⟨hsize, hnamed, hpaired⟩
  · exact ⟨[], pairing_nil hnil, nofun⟩
  rcases pairing_cases h' with ⟨hnil, rfl⟩ | ⟨hsize', hnamed', hpaired'⟩
  · exact ⟨[], pairing_nil (entries_eq_nil_of_size_le hsize hnil), nofun⟩
  rw [pairing_eq (hsize.trans hsize') (hnamed.trans hnamed')]
  rcases hpaired with ⟨hp, hds⟩ | ⟨hp, rfl⟩
  · rcases hpaired' with ⟨-, hds'⟩ | ⟨hq, -⟩
    · -- By names: the value in between is found under the name of the entry, and so is the last
      -- value, since the entry in between has that name.
      have hthrough (e : Entry Term) (he : e ∈ p.entries) : ∃ m v,
          (e.value, m) ∈ ds ∧ (m, v) ∈ ds' ∧ r.get? (e.name?.getD "") = some v := by
        obtain ⟨m, hm⟩ := exists_besideNamed.1 ⟨ds, hds⟩ e he
        obtain ⟨f, hf, hname, rfl⟩ := exists_entry_of_get? hm
        obtain ⟨v, hv⟩ := exists_besideNamed.1 ⟨ds', hds'⟩ f hf
        refine ⟨f.value, v, (mem_besideNamed hds).2 ⟨e, he, rfl, hm⟩,
          (mem_besideNamed hds').2 ⟨f, hf, rfl, hv⟩, ?_⟩
        rwa [hname, Option.getD_some] at hv
      rw [hp, if_pos rfl]
      obtain ⟨ds'', hds''⟩ := exists_besideNamed.2 fun e he ↦ by
        obtain ⟨-, v, -, -, hv⟩ := hthrough e he
        exact ⟨v, hv⟩
      refine ⟨ds'', hds'', fun d hd ↦ ?_⟩
      obtain ⟨e, he, hvalue, hget⟩ := (mem_besideNamed hds'').1 hd
      obtain ⟨m, v, hm, hv, hget'⟩ := hthrough e he
      obtain rfl : v = d.2 := Option.some.inj (hget'.symm.trans hget)
      exact ⟨m, hvalue ▸ hm, hv⟩
    · rw [← hnamed, hp] at hq
      cases hq
  · rcases hpaired' with ⟨hq, -⟩ | ⟨-, rfl⟩
    · rw [← hnamed, hp] at hq
      cases hq
    · -- By places: what stands in a place of the first and the last stands in a place of the
      -- second.
      rw [hp, if_neg Bool.false_ne_true]
      refine ⟨_, rfl, fun d hd ↦ exists_mem_zip_of_mem_zip ?_ hd⟩
      rwa [length_values, length_values]

end Listing

/-- Without captures an array pattern fits arrays of its length only. -/
theorem Matching.fits_iff_length_eq {ps cs : List Term} (h : (Term.array ps).hasCapture = false) :
    fits ps cs = true ↔ ps.length = cs.length := by
  have hcapture : Term.anyCapture ps = false := h
  rw [fits, hcapture, Bool.and_false, Bool.or_false, beq_iff_eq]

namespace Term

variable {p q r t : Term} {ds ds' : List (Term × Term)}

/-- The ways in which two terms are paired. -/
inductive Paired : Term → Term → List (Term × Term) → Prop
  | text (s : String) : Paired (.text s) (.text s) []
  | array {ps cs : List Term} (h : Matching.fits ps cs = true) :
    Paired (.array ps) (.array cs) (ps.zip cs)
  | listing {p c : Listing Term} {ds : List (Term × Term)} (h : p.pairing c = some ds) :
    Paired (.listing p) (.listing c) ds
  | call {name : String} {p c : Listing Term} {i j : Option (List (Entry Term))}
    {ds : List (Term × Term)} (h : p.pairing c = some ds) :
    Paired (.call name p i) (.call name c j) ds
  | rule (s t s' t' : Term) : Paired (.rule s t) (.rule s' t') [(s, s'), (t, t')]

/-- **What is paired is of the same kind**: two texts, two arrays, two listings, two calls or two
rules. -/
theorem pairing_eq_some_iff : p.pairing q = some ds ↔ Paired p q ds := by
  constructor
  · intro h
    rw [pairing.eq_def] at h
    split at h
    · split at h
      · next heq =>
        cases h
        exact heq ▸ .text _
      · cases h
    · split at h
      · next hfits =>
        cases h
        exact .array hfits
      · cases h
    · exact .listing h
    · split at h
      · next heq => exact heq ▸ .call h
      · cases h
    · cases h
      exact .rule ..
    · cases h
  · rintro (_ | hfits | h | h | _)
    · exact if_pos rfl
    · exact if_pos hfits
    · exact h
    · exact (if_pos rfl).trans h
    · rfl

/-- **Pairings compose** where there are no captures. -/
theorem pairing_trans (hp : p.hasCapture = false) (hq : q.hasCapture = false)
    (h : p.pairing q = some ds) (h' : q.pairing r = some ds') :
    ∃ ds'', p.pairing r = some ds'' ∧ ∀ d ∈ ds'', ∃ m, (d.1, m) ∈ ds ∧ (m, d.2) ∈ ds' := by
  -- What is paired is of the same kind, so all three terms are.
  cases pairing_eq_some_iff.1 h with
  | text s =>
    cases pairing_eq_some_iff.1 h'
    exact ⟨[], h, nofun⟩
  | array hfits =>
    cases pairing_eq_some_iff.1 h' with
    | array hfits' =>
      have hlength := (Matching.fits_iff_length_eq hp).1 hfits
      have hfits := (Matching.fits_iff_length_eq hp).2
        (hlength.trans ((Matching.fits_iff_length_eq hq).1 hfits'))
      refine ⟨_, if_pos hfits,
        fun d hd ↦ Listing.exists_mem_zip_of_mem_zip hlength.le hd⟩
  | listing hds =>
    cases pairing_eq_some_iff.1 h' with
    | listing hds' => exact Listing.pairing_trans hds hds'
  | call hds =>
    cases pairing_eq_some_iff.1 h' with
    | call hds' =>
      obtain ⟨ds'', hds'', hall⟩ := Listing.pairing_trans hds hds'
      exact ⟨ds'', pairing_eq_some_iff.2 (.call hds''), hall⟩
  | rule s t s' t' =>
    cases pairing_eq_some_iff.1 h' with
    | rule _ _ s'' t'' =>
      refine ⟨_, rfl, fun d hd ↦ ?_⟩
      rcases List.mem_cons.1 hd with rfl | hd
      · exact ⟨s', List.mem_cons_self, List.mem_cons_self⟩
      · obtain rfl := List.mem_singleton.1 hd
        exact ⟨t', List.mem_cons_of_mem _ List.mem_cons_self,
          List.mem_cons_of_mem _ List.mem_cons_self⟩

end Term

/-- **Matching is transitive** on ground terms. -/
theorem Relates.trans {resolve σ : String → Option Term} {p q r : Term} (hp : p.IsGround)
    (hq : q.IsGround) (hr : r.IsGround) (h : Relates resolve σ p q) (h' : Relates resolve σ q r) :
    Relates resolve σ p r := by
  induction p using Term.induction_parts generalizing q r with
  | h p ih =>
    obtain ⟨ds, hds, hall⟩ := (parts_iff hp.isConcrete hq.reference?).1 h
    obtain ⟨ds', hds', hall'⟩ := (parts_iff hq.isConcrete hr.reference?).1 h'
    obtain ⟨ds'', hds'', hthrough⟩ := Term.pairing_trans hp.captureFree hq.captureFree hds hds'
    refine .parts hds'' fun d hd ↦ ?_
    obtain ⟨m, hm, hm'⟩ := hthrough d hd
    obtain ⟨hfst, hmiddle⟩ := Term.mem_parts_of_pairing hds hm
    obtain ⟨-, hsnd⟩ := Term.mem_parts_of_pairing hds' hm'
    exact ih d.1 hfst (hp.part hfst) (hq.part hmiddle) (hr.part hsnd) (hall _ hm) (hall' _ hm')

/-! ### A term and its core -/

namespace Listing

theorem mapValues_id (l : Listing Term) : l.mapValues id = l := by
  have hentry : mapEntry id = id := rfl
  rw [mapValues, hentry, List.map_id]

/-- A distinct listing is paired with itself entry by entry, whatever becomes of the values. -/
theorem pairing_mapValues_self {l : Listing Term} (hl : Distinct l.entries) (f g : Term → Term) :
    (l.mapValues f).pairing (l.mapValues g) = some (l.values.map fun v ↦ (f v, g v)) := by
  rw [pairing_mapValues, pairing_self hl.1 (unambiguous_of_nodup hl.2), Option.map_some,
    List.map_map]
  rfl

end Listing

namespace Term

variable {t : Term}

/-- A tidy term and its core are paired part by part, either way. -/
theorem pairing_core (hconcrete : t.isConcrete = true) (ht : t.IsTidy) :
    t.pairing t.core = some (t.parts.map fun v ↦ (v, v.core)) ∧
      t.core.pairing t = some (t.parts.map fun v ↦ (v.core, v)) := by
  have hlisting (l : Listing Term) (hl : Listing.Distinct l.entries) :
      l.pairing (l.mapValues core).bare = some (l.values.map fun v ↦ (v, v.core)) ∧
        (l.mapValues core).bare.pairing l = some (l.values.map fun v ↦ (v.core, v)) := by
    have hright := Listing.pairing_mapValues_self hl id core
    have hleft := Listing.pairing_mapValues_self hl core id
    rw [l.mapValues_id] at hright hleft
    rw [Listing.pairing_bare_right, Listing.pairing_bare_left]
    exact ⟨hright, hleft⟩
  -- A listing that keeps its names is paired with itself whatever becomes of its values, and
  -- pairing does not look at what bare entries lack.
  cases t with
  | reference | capture => cases hconcrete
  | text s => exact ⟨if_pos rfl, if_pos rfl⟩
  | array items =>
    have hpairing (f g : Term → Term) : (array (items.map f)).pairing (array (items.map g)) =
        some (items.map fun v ↦ (f v, g v)) := by
      have hfits : Matching.fits (items.map f) (items.map g) = true := by simp [Matching.fits]
      rw [pairing, if_pos hfits, List.zip_map']
    have hright := hpairing id core
    have hleft := hpairing core id
    rw [List.map_id] at hright hleft
    rw [core_array]
    exact ⟨hright, hleft⟩
  | listing l =>
    rw [core_listing]
    exact hlisting l ht.entries
  | call name l internal =>
    rw [core_call, pairing, pairing, if_pos rfl, if_pos rfl]
    exact hlisting l ht.entries
  | rule => exact ⟨rfl, rfl⟩

end Term

/-- **A ground term and its core match each other.** -/
theorem Relates.core {resolve σ : String → Option Term} {t : Term} (ht : t.IsGround) :
    Relates resolve σ t t.core ∧ Relates resolve σ t.core t := by
  induction t using Term.induction_parts with
  | h t ih =>
    obtain ⟨hright, hleft⟩ := Term.pairing_core ht.isConcrete ht.tidy
    refine ⟨.parts hright ?_, .parts hleft ?_⟩ <;> rw [List.forall_mem_map]
    · exact fun v hv ↦ (ih v hv (ht.part hv)).1
    · exact fun v hv ↦ (ih v hv (ht.part hv)).2

/-! ### Matching both ways -/

namespace Listing

variable {p c : Listing Term} {ds ds' : List (Term × Term)}

/-- Named entries with distinct names are distinct. -/
theorem nodup_of_names {es : List (Entry Term)} (hnamed : ∀ e ∈ es, e.name?.isSome = true)
    (h : (es.filterMap (·.name?)).Nodup) : es.Nodup := by
  refine (List.pairwise_filterMap.1 h).imp_of_mem fun {e f} he _ hne heq ↦ ?_
  obtain ⟨name, hname⟩ := Option.isSome_iff_exists.1 (hnamed e he)
  exact hne name hname name (heq ▸ hname) rfl

/-- In a uniform listing that is not named, no entry is. -/
theorem name?_eq_none_of_not_isNamed {l : Listing Term} (h : Uniform l.entries)
    (hnamed : l.isNamed = false) : ∀ e ∈ l.entries, e.name? = none := by
  intro e he
  rcases h with h | h
  · rw [isNamed_of_forall h, Bool.not_eq_false'] at hnamed
    rw [List.isEmpty_iff.1 hnamed] at he
    cases he
  · exact Option.isNone_iff_eq_none.1 (h e he)

/-- Named entries of a listing that are paired with those of a listing that is not longer are
paired with all of them. -/
theorem exists_beside_named (hp : Distinct p.entries) (hnamed : p.isNamed = true)
    (hsize : c.size ≤ p.size) (h : besideNamed c p.entries = some ds) :
    ∃ es : List (Entry Term × Entry Term),
      (∀ e ∈ es, e.1.name? = e.2.name? ∧ (e.1.value, e.2.value) ∈ ds) ∧
        Rearranged (es.map Prod.fst) p.entries ∧ Rearranged (es.map Prod.snd) c.entries := by
  have hall := isSome_name?_of_isNamed hp.1 hnamed
  have hpartner (e : Entry Term) (he : e ∈ p.entries) :
      ∃ f ∈ c.entries, e.name? = f.name? ∧ (e.value, f.value) ∈ ds := by
    obtain ⟨name, hname⟩ := Option.isSome_iff_exists.1 (hall e he)
    obtain ⟨v, hv⟩ := exists_besideNamed.1 ⟨ds, h⟩ e he
    have hmem : (e.value, v) ∈ ds := (mem_besideNamed h).2 ⟨e, he, rfl, hv⟩
    rw [hname] at hv
    obtain ⟨f, hf, hfname, rfl⟩ := exists_entry_of_get? hv
    exact ⟨f, hf, hname.trans hfname.symm, hmem⟩
  choose! partner hmem hname hvalue using hpartner
  -- The partners have the names of the entries, so no two are the same.
  have hnames : (p.entries.map partner).filterMap (·.name?) = p.entries.filterMap (·.name?) := by
    rw [List.filterMap_map]
    exact List.filterMap_congr fun e he ↦ (hname e he).symm
  have hallpartners : ∀ f ∈ p.entries.map partner, f.name?.isSome = true := by
    rw [List.forall_mem_map]
    exact fun e he ↦ hname e he ▸ hall e he
  have hnodup : (p.entries.map partner).Nodup := nodup_of_names hallpartners (hnames ▸ hp.2)
  have hsub : p.entries.map partner ⊆ c.entries := by
    intro f hf
    obtain ⟨e, he, rfl⟩ := List.mem_map.1 hf
    exact hmem e he
  have hperm : (p.entries.map partner).Perm c.entries :=
    (hnodup.subperm hsub).perm_of_length_le (by rwa [List.length_map])
  refine ⟨p.entries.map fun e ↦ (e, partner e), ?_, ?_, ?_⟩
  · rw [List.forall_mem_map]
    exact fun e he ↦ ⟨hname e he, hvalue e he⟩
  · rw [List.map_map]
    exact .inl (List.map_id _)
  · rw [List.map_map]
    exact .inr ⟨fun f hf ↦ hallpartners f (hperm.mem_iff.2 hf), hperm⟩

/-- **Distinct listings that are paired both ways** have their entries side by side. -/
theorem exists_beside (hp : Distinct p.entries) (hc : Distinct c.entries)
    (h : p.pairing c = some ds) (h' : c.pairing p = some ds') :
    ∃ es : List (Entry Term × Entry Term),
      (∀ e ∈ es, e.1.name? = e.2.name? ∧ (e.1.value, e.2.value) ∈ ds) ∧
        Rearranged (es.map Prod.fst) p.entries ∧ Rearranged (es.map Prod.snd) c.entries := by
  have hsize : c.size = p.size := (size_le_of_pairing h').antisymm (size_le_of_pairing h)
  rcases pairing_cases h with ⟨hnil, -⟩ | ⟨-, hnamed, ⟨hpnamed, hds⟩ | ⟨hpnamed, rfl⟩⟩
  · exact ⟨[], nofun, .inl hnil.symm, .inl (entries_eq_nil_of_size_le hsize.le hnil).symm⟩
  · exact exists_beside_named hp hpnamed hsize.le hds
  · have hnone := name?_eq_none_of_not_isNamed hp.1 hpnamed
    have hnone' := name?_eq_none_of_not_isNamed hc.1 (hnamed ▸ hpnamed)
    refine ⟨p.entries.zip c.entries, fun e he ↦ ⟨?_, ?_⟩, .inl (List.map_fst_zip hsize.ge),
      .inl (List.map_snd_zip hsize.le)⟩
    · obtain ⟨hfst, hsnd⟩ := List.of_mem_zip he
      rw [hnone _ hfst, hnone' _ hsnd]
    · rw [values, values, List.zip_map]
      exact List.mem_map_of_mem he

/-- Rearranged entries stay so when each is changed but for its name. -/
theorem Rearranged.map {es' es : List (Entry Term)} {f : Entry Term → Entry Term}
    (hf : ∀ e, (f e).name? = e.name?) (h : Rearranged es' es) :
    Rearranged (es'.map f) (es.map f) := by
  rcases h with rfl | ⟨hnamed, hperm⟩
  · exact .inl rfl
  · refine .inr ⟨?_, hperm.map f⟩
    rw [List.forall_mem_map]
    exact fun e he ↦ (hf e).symm ▸ hnamed e he

/-- The bare entries of distinct listings that are paired both ways are reordered into each other,
if the cores of what is paired are related. -/
theorem reorderedBy_core {R : Term → Term → Prop} (hp : Distinct p.entries)
    (hc : Distinct c.entries) (h : p.pairing c = some ds) (h' : c.pairing p = some ds')
    (hR : ∀ d ∈ ds, R d.1.core d.2.core) :
    ReorderedBy R (p.entries.map Term.coreEntry) (c.entries.map Term.coreEntry) := by
  obtain ⟨es, hes, hfst, hsnd⟩ := exists_beside hp hc h h'
  refine ⟨es.map (Prod.map Term.coreEntry Term.coreEntry), ?_, ?_, ?_⟩
  · rw [List.forall_mem_map]
    exact fun e he ↦ ⟨Label.bare_eq_of_name? (hes e he).1, rfl, hR _ (hes e he).2⟩
  · have h := hfst.map Term.name?_coreEntry
    rwa [List.map_map] at h ⊢
  · have h := hsnd.map Term.name?_coreEntry
    rwa [List.map_map] at h ⊢

end Listing

/-- **Ground terms that match each other have reordered cores.** -/
theorem Relates.reordered_core {resolve σ : String → Option Term} {p c : Term} (hp : p.IsGround)
    (hc : c.IsGround) (h : Relates resolve σ p c) (h' : Relates resolve σ c p) :
    Reordered p.core c.core := by
  induction p using Term.induction_parts generalizing c with
  | h p ih =>
    obtain ⟨ds, hds, hall⟩ := (parts_iff hp.isConcrete hc.reference?).1 h
    obtain ⟨ds', hds', hall'⟩ := (parts_iff hc.isConcrete hp.reference?).1 h'
    -- What is paired one way is paired the other way too, so it matches both ways.
    have hparts (d : Term × Term) (hd : d ∈ ds) : Reordered d.1.core d.2.core := by
      obtain ⟨hfst, hsnd⟩ := Term.mem_parts_of_pairing hds hd
      exact ih d.1 hfst (hp.part hfst) (hc.part hsnd) (hall d hd)
        (hall' _ (Term.pairing_swap hc.tidy hds' hds hd))
    cases Term.pairing_eq_some_iff.1 hds with
    | text s => exact .refl _
    | @array ps cs hfits =>
      have hlength := (Matching.fits_iff_length_eq hp.captureFree).1 hfits
      have harray := Reordered.array ((ps.zip cs).map (Prod.map Term.core Term.core))
        (List.forall_mem_map.2 hparts)
      rw [← List.zip_map, List.map_fst_zip (by simp [hlength]),
        List.map_snd_zip (by simp [hlength])]
        at harray
      rwa [Term.core_array, Term.core_array]
    | listing hlk =>
      cases Term.pairing_eq_some_iff.1 hds' with
      | listing hkl =>
        obtain ⟨es, hes, hfst, hsnd⟩ :=
          Listing.reorderedBy_core hp.tidy.entries hc.tidy.entries hlk hkl hparts
        rw [Term.core, Term.core, Term.coreEntries_eq, Term.coreEntries_eq]
        exact .listing es (fun e he ↦ ⟨(hes e he).1, (hes e he).2.1⟩) (fun e he ↦ (hes e he).2.2)
          hfst hsnd
    | call hlk =>
      cases Term.pairing_eq_some_iff.1 hds' with
      | call hkl =>
        obtain ⟨es, hes, hfst, hsnd⟩ :=
          Listing.reorderedBy_core hp.tidy.entries hc.tidy.entries hlk hkl hparts
        rw [Term.core, Term.core, Term.coreEntries_eq, Term.coreEntries_eq]
        exact .call es (fun e he ↦ ⟨(hes e he).1, (hes e he).2.1⟩) (fun e he ↦ (hes e he).2.2)
          hfst hsnd
    | rule s t s' t' =>
      exact .rule (hparts _ List.mem_cons_self)
        (hparts _ (List.mem_cons_of_mem _ List.mem_cons_self))

/-- **Ground terms with reordered cores match.** Each of the two matches its core, both ways. -/
theorem Relates.of_reordered_core {resolve : String → Option Term} {p c : Term} (hp : p.IsGround)
    (hc : c.IsGround) (h : Reordered p.core c.core) : Relates resolve nothing p c := by
  have hself : Relates resolve nothing p.core p.core :=
    .refl (Term.captures_eq_nil _ hp.core.captureFree) hp.core.tidy
  have hcores : Relates resolve nothing p.core c.core := hself.reorder_candidate h.symm hp.core.tidy
  exact (Relates.core hp).1.trans hp hp.core hc
    (hcores.trans hp.core hc.core hc (Relates.core hc).2)

/-! ### The preorder -/

/-- Over the empty storage, matching decides the relation on ground terms. -/
theorem Term.IsGround.matches_iff {p : Term} (hp : p.IsGround) (c : Term) :
    Term.matches .empty p c = true ↔ Relates Storage.empty.resolve nothing p c := by
  have hplain : Plain Storage.empty.resolve ∅ := ⟨nofun, nofun⟩
  rw [← Term.matching_iff_relates Storage.acyclic_empty hplain
    (by rw [hp.references]; exact nofun) (Term.captures_eq_nil p hp.captureFree), Term.matches]
  split
  · next b hb => exact iff_of_true rfl ⟨b, hb⟩
  · next hnone => exact iff_of_false Bool.false_ne_true fun ⟨b, hb⟩ ↦ hnone b hb

/-- **Ground matching is a preorder whose equivalence is equality of content.** On terms without
captures and references in which no listing has a name twice, matching is reflexive and transitive,
and two terms match each other both ways just when they are equal up to the order of named entries,
once internal listings, the forms of listings, declaration types and modifiers are left out. -/
theorem Term.matches_preorder :
    (∀ t : Term, t.IsGround → Term.matches .empty t t = true) ∧
      (∀ p q r : Term, p.IsGround → q.IsGround → r.IsGround → Term.matches .empty p q = true →
        Term.matches .empty q r = true → Term.matches .empty p r = true) ∧
      ∀ p c : Term, p.IsGround → c.IsGround →
        (Term.matches .empty p c = true ∧ Term.matches .empty c p = true ↔
          Reordered p.core c.core) := by
  refine ⟨fun t ht ↦ ?_, fun p q r hp hq hr hpq hqr ↦ ?_, fun p c hp hc ↦ ?_⟩
  · exact (ht.matches_iff t).2 (.refl (captures_eq_nil t ht.captureFree) ht.tidy)
  · rw [hp.matches_iff] at hpq ⊢
    rw [hq.matches_iff] at hqr
    exact hpq.trans hp hq hr hqr
  · rw [hp.matches_iff, hc.matches_iff]
    exact ⟨fun ⟨h, h'⟩ ↦ h.reordered_core hp hc h',
      fun h ↦ ⟨.of_reordered_core hp hc h, .of_reordered_core hc hp h.symm⟩⟩

/-- A call with one parameter matches one with two, which matches one that declares them in another
order, with modifiers and an internal listing; the last two match both ways. -/
theorem Term.matches_preorder_calls :
    let p := Term.call "F" ⟨[⟨.named "a", [], .text "1"⟩], .parameters⟩ none
    let q := Term.call "F"
      ⟨[⟨.named "a", [], .text "1"⟩, ⟨.named "b", [], .array [.text "2"]⟩], .parameters⟩ none
    let r := Term.call "F"
      ⟨[⟨.typed "t" "b", ["m"], .array [.text "2"]⟩, ⟨.named "a", [], .text "1"⟩], .statements⟩
      (some [⟨.named "c", [], .text "3"⟩])
    Term.matches .empty p p = true ∧ Term.matches .empty p r = true ∧
      Term.matches .empty r p = false ∧ Reordered q.core r.core := by
  intro p q r
  have hp : p.IsGround := ⟨by decide, by decide, by decide⟩
  have hq : q.IsGround := ⟨by decide, by decide, by decide⟩
  have hr : r.IsGround := ⟨by decide, by decide, by decide⟩
  have hqr : Term.matches .empty q r = true := by decide +kernel
  obtain ⟨hrefl, htrans, hequal⟩ := Term.matches_preorder
  exact ⟨hrefl p hp, htrans p q r hp hq hr (by decide +kernel) hqr, by decide +kernel,
    (hequal q r hq hr).1 ⟨hqr, by decide +kernel⟩⟩

end TermRegistry
