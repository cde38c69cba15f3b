import Mathlib
import TermRegistry.Matching

/-!
# The parts that matching looks at

Matching goes down into the items of an array, into the values of a listing or of the parameters of
a call, and into the two sides of a rule. These are the parts of a term; the terms that are reached
by going on to the parts of parts are exposed in it. An internal listing is no part of a call, and
what stands in one alone is not exposed.

`Term.pairing` is the shape of matching without its order: which parts of a pattern have to match
which parts of a candidate, once it is settled that neither is a reference or a capture. The parts
of the pattern are all in it (`Term.map_fst_pairing`), whatever the candidate has beside them.
-/

namespace TermRegistry

/-! ### Listings -/

namespace Listing

/-- The values of the entries. -/
def values (l : Listing Term) : List Term := l.entries.map (·.value)

/-- The values of some entries, each beside the first value of the same name in a listing. -/
def besideNamed (c : Listing Term) : List (Entry Term) → Option (List (Term × Term))
  | [] => some []
  | e :: es => do
    let v ← c.get? (e.name?.getD "")
    return (e.value, v) :: (← besideNamed c es)

/-- **What has to match in two listings.** Nothing does if the pattern is empty. Otherwise it must
not be longer than the candidate, and both are named or both are positional: each named entry has to
match the candidate's first entry of that name, and each positional one the entry in its place. -/
def pairing (p c : Listing Term) : Option (List (Term × Term)) :=
  if c.size < p.size then none
  else if p.isEmpty then some []
  else if p.isNamed != c.isNamed then none
  else if p.isNamed then besideNamed c p.entries
  else some (p.values.zip c.values)

/-- **Distinct entries**: all are named or none is, and no name occurs twice. -/
def Distinct (entries : List (Entry Term)) : Prop :=
  Uniform entries ∧ (entries.filterMap (·.name?)).Nodup

instance (entries : List (Entry Term)) : Decidable (Distinct entries) :=
  inferInstanceAs (Decidable (_ ∧ _))

/-- **Unambiguous entries**: those of the same name have the same value. -/
def Unambiguous (entries : List (Entry Term)) : Prop :=
  ∀ d ∈ entries, ∀ e ∈ entries, e.name?.isSome = true → d.name? = e.name? → d.value = e.value

instance (entries : List (Entry Term)) : Decidable (Unambiguous entries) :=
  inferInstanceAs (Decidable (∀ d ∈ entries, ∀ e ∈ entries, _ → _ → _))

variable {p c : Listing Term} {ds : List (Term × Term)}

/-- What is found under a name is the value of an entry of that name. -/
theorem exists_entry_of_get? {name : String} {v : Term} (h : c.get? name = some v) :
    ∃ e ∈ c.entries, e.name? = some name ∧ e.value = v := by
  obtain ⟨e, he, rfl⟩ := Option.map_eq_some_iff.1 h
  exact ⟨e, List.mem_of_find?_eq_some he, by simpa using List.find?_some he, rfl⟩

theorem mem_values_of_get? {name : String} {v : Term} (h : c.get? name = some v) :
    v ∈ c.values := by
  obtain ⟨e, he, -, rfl⟩ := exists_entry_of_get? h
  exact List.mem_map_of_mem he

/-- The first entry is put beside what is found under its name, and the others in the same way. -/
theorem besideNamed_cons_eq_some {e : Entry Term} {es : List (Entry Term)} :
    besideNamed c (e :: es) = some ds ↔
      ∃ v rest, c.get? (e.name?.getD "") = some v ∧ besideNamed c es = some rest ∧
        ds = (e.value, v) :: rest := by
  rw [besideNamed]
  simp only [bind, Option.bind_eq_some_iff, pure, Option.some.injEq]
  constructor
  · rintro ⟨v, hv, rest, hrest, rfl⟩
    exact ⟨v, rest, hv, hrest, rfl⟩
  · rintro ⟨v, rest, hv, hrest, rfl⟩
    exact ⟨v, hv, rest, hrest, rfl⟩

/-- Named entries are paired one by one. -/
theorem besideNamed_eq_some {es : List (Entry Term)} :
    besideNamed c es = some ds ↔
      List.Forall₂ (fun e d ↦ d.1 = e.value ∧ c.get? (e.name?.getD "") = some d.2) es ds := by
  induction es generalizing ds with
  | nil =>
    rw [List.forall₂_nil_left_iff, besideNamed, Option.some.injEq]
    exact eq_comm
  | cons e es ih =>
    rw [besideNamed_cons_eq_some, List.forall₂_cons_left_iff]
    constructor
    · rintro ⟨v, rest, hv, hrest, rfl⟩
      exact ⟨(e.value, v), rest, ⟨rfl, hv⟩, ih.1 hrest, rfl⟩
    · rintro ⟨⟨u, v⟩, rest, ⟨hu, hv⟩, hrest, rfl⟩
      obtain rfl : u = e.value := hu
      exact ⟨v, rest, hv, ih.2 hrest, rfl⟩

/-- What named entries are paired with, apart from their order. -/
theorem mem_besideNamed {es : List (Entry Term)} (h : besideNamed c es = some ds)
    {d : Term × Term} :
    d ∈ ds ↔ ∃ e ∈ es, d.1 = e.value ∧ c.get? (e.name?.getD "") = some d.2 := by
  induction es generalizing ds with
  | nil =>
    cases h
    exact ⟨nofun, fun ⟨_, he, _⟩ ↦ nomatch he⟩
  | cons e es ih =>
    obtain ⟨v, rest, hv, hrest, rfl⟩ := besideNamed_cons_eq_some.1 h
    rw [List.mem_cons, ih hrest, List.exists_mem_cons_iff, hv]
    refine or_congr_left ⟨?_, fun ⟨hvalue, hd⟩ ↦ Prod.ext hvalue (Option.some.inj hd).symm⟩
    rintro rfl
    exact ⟨rfl, rfl⟩

/-- Named entries are paired just when all their names are found. -/
theorem exists_besideNamed {es : List (Entry Term)} : (∃ ds, besideNamed c es = some ds) ↔
    ∀ e ∈ es, ∃ v, c.get? (e.name?.getD "") = some v := by
  induction es with
  | nil => exact ⟨fun _ ↦ nofun, fun _ ↦ ⟨[], rfl⟩⟩
  | cons e es ih =>
    rw [List.forall_mem_cons, ← ih]
    constructor
    · rintro ⟨ds, hds⟩
      obtain ⟨v, rest, hv, hrest, -⟩ := besideNamed_cons_eq_some.1 hds
      exact ⟨⟨v, hv⟩, rest, hrest⟩
    · rintro ⟨⟨v, hv⟩, rest, hrest⟩
      exact ⟨_, besideNamed_cons_eq_some.2 ⟨v, rest, hv, hrest, rfl⟩⟩

/-- Nothing has to match if the pattern is empty. -/
theorem pairing_nil (h : p.entries = []) : p.pairing c = some [] := by
  have hsize : ¬ c.size < p.size := by
    rw [size, size, h]
    exact Nat.not_lt_zero _
  rw [pairing, if_neg hsize, isEmpty, h]
  rfl

/-- A pattern that is not longer and as named as the candidate is paired by names or by places. -/
theorem pairing_eq (hsize : p.size ≤ c.size) (hnamed : p.isNamed = c.isNamed) :
    p.pairing c = if p.isNamed then besideNamed c p.entries else some (p.values.zip c.values) := by
  rw [pairing, if_neg hsize.not_gt, hnamed, bne_self_eq_false, if_neg Bool.false_ne_true]
  split
  · next hempty =>
    have hnil : p.entries = [] := List.isEmpty_iff.1 hempty
    have hpositional : c.isNamed = false := by rw [← hnamed, isNamed, hnil]; rfl
    rw [hpositional, values, hnil]
    rfl
  · rfl

/-- The two ways in which a listing that is not empty is paired with another one. -/
theorem pairing_cases (h : p.pairing c = some ds) :
    p.entries = [] ∧ ds = [] ∨
      p.size ≤ c.size ∧ p.isNamed = c.isNamed ∧
        (p.isNamed = true ∧ besideNamed c p.entries = some ds ∨
          p.isNamed = false ∧ ds = p.values.zip c.values) := by
  -- The four conditions of the definition in turn; the first and the third exclude a pairing.
  rw [pairing] at h
  split at h
  · cases h
  · next hsize =>
    split at h
    · next hempty =>
      cases h
      exact .inl ⟨List.isEmpty_iff.1 hempty, rfl⟩
    · split at h
      · cases h
      · next hnamed =>
        have hboth : p.isNamed = c.isNamed := by simpa using hnamed
        refine .inr ⟨Nat.le_of_not_lt hsize, hboth, ?_⟩
        split at h
        · next hp => exact .inl ⟨hp, h⟩
        · next hp => exact .inr ⟨Bool.eq_false_iff.2 hp, (Option.some.inj h).symm⟩

theorem length_values (l : Listing Term) : l.values.length = l.size := List.length_map _

/-- All values of the pattern are paired. -/
theorem map_fst_pairing (h : p.pairing c = some ds) : ds.map Prod.fst = p.values := by
  rcases pairing_cases h with ⟨hp, rfl⟩ | ⟨hsize, -, ⟨-, hds⟩ | ⟨-, rfl⟩⟩
  · rw [values, hp]
    rfl
  · rw [values]
    refine (List.forall₂_eq_eq_eq ▸ ?_ : ds.map Prod.fst = p.entries.map (·.value))
    rw [List.forall₂_map_left_iff, List.forall₂_map_right_iff]
    exact (besideNamed_eq_some.1 hds).flip.imp fun _ _ hd ↦ hd.1
  · exact List.map_fst_zip (by rw [length_values, length_values]; exact hsize)

/-- Only values of the candidate are paired. -/
theorem mem_values_of_pairing (h : p.pairing c = some ds) {d : Term × Term} (hd : d ∈ ds) :
    d.2 ∈ c.values := by
  rcases pairing_cases h with ⟨-, rfl⟩ | ⟨-, -, ⟨-, hds⟩ | ⟨-, rfl⟩⟩
  · cases hd
  · obtain ⟨e, -, -, hget⟩ := (mem_besideNamed hds).1 hd
    exact mem_values_of_get? hget
  · exact (List.of_mem_zip hd).2

/-- A name whose entries have one value is looked up to it. -/
theorem get?_of_unambiguous {l : Listing Term} (h : Unambiguous l.entries) {e : Entry Term}
    (he : e ∈ l.entries) {name : String} (hname : e.name? = some name) :
    l.get? name = some e.value := by
  have hfound : ∃ d ∈ l.entries, (d.name? == some name) = true := ⟨e, he, beq_iff_eq.2 hname⟩
  obtain ⟨d, hd⟩ := Option.isSome_iff_exists.1 (List.find?_isSome.2 hfound)
  have hdname : d.name? = some name := by simpa using List.find?_some hd
  rw [get?, hd, Option.map_some, h d (List.mem_of_find?_eq_some hd) e he
    (by rw [hname]; rfl) (hdname.trans hname.symm)]

/-- Entries of which no two have the same name are unambiguous. -/
theorem unambiguous_of_nodup {entries : List (Entry Term)}
    (h : (entries.filterMap (·.name?)).Nodup) : Unambiguous entries := by
  induction entries with
  | nil => exact nofun
  | cons c es ih =>
    -- Another entry with the name of the first one would stand further behind.
    have hfirst {e : Entry Term} (he : e ∈ es) (hname : e.name?.isSome = true) :
        c.name? ≠ e.name? := by
      intro hc
      obtain ⟨name, hname⟩ := Option.isSome_iff_exists.1 hname
      rw [List.filterMap_cons_some (hc.trans hname), List.nodup_cons] at h
      exact h.1 (List.mem_filterMap.2 ⟨e, he, hname⟩)
    have hrest := ih (h.sublist ((List.sublist_cons_self c es).filterMap _))
    refine List.forall_mem_cons.2 ⟨List.forall_mem_cons.2 ⟨fun _ _ ↦ rfl, ?_⟩, fun d hd ↦ ?_⟩
    · exact fun e he hname heq ↦ absurd heq (hfirst he hname)
    · refine List.forall_mem_cons.2 ⟨fun hname heq ↦ ?_, hrest d hd⟩
      exact absurd heq.symm (hfirst hd (heq ▸ hname))

/-- A name that occurs once is looked up at the entry that bears it. -/
theorem get?_of_nodup {l : Listing Term} (h : (l.entries.filterMap (·.name?)).Nodup)
    {e : Entry Term} (he : e ∈ l.entries) {name : String} (hname : e.name? = some name) :
    l.get? name = some e.value :=
  get?_of_unambiguous (unambiguous_of_nodup h) he hname

/-- All entries are named if the first one is and they are uniform. -/
theorem isSome_name?_of_isNamed {l : Listing Term} (h : Uniform l.entries)
    (hnamed : l.isNamed = true) : ∀ e ∈ l.entries, e.name?.isSome = true := by
  obtain ⟨es, form⟩ := l
  rcases h with h | h
  · exact h
  · cases es with
    | nil => cases hnamed
    | cons e es =>
      have hnone : e.name?.isNone = true := h e List.mem_cons_self
      rw [← Option.not_isSome, show e.name?.isSome = true from hnamed] at hnone
      cases hnone

theorem isNamed_of_not_isPositional {l : Listing Term} (hne : l.entries ≠ [])
    (h : l.isPositional = false) : l.isNamed = true := by
  obtain ⟨es, form⟩ := l
  cases es with
  | nil => exact absurd rfl hne
  | cons e es =>
    show e.name?.isSome = true
    rw [← Option.not_isNone, show e.name?.isNone = false from h]
    rfl

theorem zip_self (vs : List Term) : vs.zip vs = vs.map fun v ↦ (v, v) := by
  have hzip : (vs.map id).zip (vs.map id) = vs.map fun v ↦ (v, v) := List.zip_map'
  rwa [List.map_id] at hzip

/-- Uniform and unambiguous entries are paired with themselves. -/
theorem pairing_self {l : Listing Term} (hu : Uniform l.entries) (h : Unambiguous l.entries) :
    l.pairing l = some (l.values.map fun v ↦ (v, v)) := by
  rw [pairing, if_neg (lt_irrefl _)]
  split
  · next hempty =>
    rw [values, List.isEmpty_iff.1 hempty]
    rfl
  · rw [bne_self_eq_false, if_neg Bool.false_ne_true]
    split
    · next hnamed =>
      rw [besideNamed_eq_some, values, List.map_map, List.forall₂_map_right_iff,
        List.forall₂_same]
      intro e he
      obtain ⟨name, hname⟩ := Option.isSome_iff_exists.1 (isSome_name?_of_isNamed hu hnamed e he)
      refine ⟨rfl, ?_⟩
      rw [hname]
      exact get?_of_unambiguous h he hname
    · exact congrArg some (zip_self l.values)

end Listing

/-! ### Parts of terms -/

namespace Term

/-- **The parts of a term** that matching goes on to. -/
def parts : Term → List Term
  | array items => items
  | listing l | call _ l _ => l.values
  | rule source target => [source, target]
  | text _ | reference _ | capture _ => []

/-- The entries of a listing, or of the parameters of a call. -/
def entries : Term → List (Entry Term)
  | listing l | call _ l _ => l.entries
  | _ => []

/-- The name of a capture. -/
def capture? : Term → Option String
  | capture name => some name
  | _ => none

/-- The name of a call. -/
def callName? : Term → Option String
  | call name _ _ => some name
  | _ => none

/-- **Concrete terms**: all but references and captures. -/
def isConcrete (t : Term) : Bool := t.reference?.isNone && t.capture?.isNone

/-- **What has to match in two terms** of which neither is a reference or a capture: nothing in
equal texts, item by item in arrays, what has to match in the listings or in the parameters of calls
with the same name, and the sources and targets of rules. All else does not match. -/
def pairing : Term → Term → Option (List (Term × Term))
  | text s, text t => if s = t then some [] else none
  | array ps, array cs => if Matching.fits ps cs then some (ps.zip cs) else none
  | listing p, listing c => p.pairing c
  | call f p _, call g c _ => if f = g then p.pairing c else none
  | rule s t, rule s' t' => some [(s, s'), (t, t')]
  | _, _ => none

/-- An array pattern has no more items than the arrays it fits. -/
theorem length_le_of_fits {ps cs : List Term} (h : Matching.fits ps cs = true) :
    ps.length ≤ cs.length := by
  rw [Matching.fits, Bool.or_eq_true, Bool.and_eq_true, decide_eq_true_eq] at h
  rcases h with h | ⟨h, -⟩
  · exact (eq_of_beq h).le
  · exact h.le

variable {p c : Term} {ds : List (Term × Term)}

/-- A call is paired with calls of its name alone. -/
theorem callName?_of_pairing {name : String} {l : Listing Term}
    {internal : Option (List (Entry Term))} (h : (call name l internal).pairing c = some ds) :
    c.callName? = some name := by
  cases c with
  | call n l' internal' =>
    rw [pairing] at h
    split at h
    · next heq => exact congrArg some heq.symm
    · cases h
  | _ => cases h

/-- **All parts of the pattern are paired.** -/
theorem map_fst_pairing (h : p.pairing c = some ds) : ds.map Prod.fst = p.parts := by
  rw [pairing.eq_def] at h
  split at h
  · split at h
    · cases h
      rfl
    · cases h
  · split at h
    · next hfits =>
      cases h
      exact List.map_fst_zip (length_le_of_fits hfits)
    · cases h
  · exact Listing.map_fst_pairing h
  · split at h
    · exact Listing.map_fst_pairing h
    · cases h
  · cases h
    rfl
  · cases h

/-- **Matching goes on to parts**, on both sides. -/
theorem mem_parts_of_pairing (h : p.pairing c = some ds) {d : Term × Term} (hd : d ∈ ds) :
    d.1 ∈ p.parts ∧ d.2 ∈ c.parts := by
  refine ⟨map_fst_pairing h ▸ List.mem_map_of_mem hd, ?_⟩
  -- All parts of the pattern are paired. For those of the candidate, kind by kind.
  rw [pairing.eq_def] at h
  split at h
  · split at h
    · cases h
      cases hd
    · cases h
  · split at h
    · cases h
      exact (List.of_mem_zip hd).2
    · cases h
  · exact Listing.mem_values_of_pairing h hd
  · split at h
    · exact Listing.mem_values_of_pairing h hd
    · cases h
  · cases h
    rcases List.mem_cons.1 hd with rfl | hd
    · exact List.mem_cons_self
    · obtain rfl := List.mem_singleton.1 hd
      exact List.mem_cons_of_mem _ List.mem_cons_self
  · cases h

/-- What is paired is concrete. -/
theorem isConcrete_of_pairing (h : p.pairing c = some ds) :
    p.isConcrete = true ∧ c.isConcrete = true := by
  rw [pairing.eq_def] at h
  split at h
  case h_6 => cases h
  all_goals exact ⟨rfl, rfl⟩

theorem reference?_of_isConcrete {t : Term} (h : t.isConcrete = true) : t.reference? = none :=
  Option.isNone_iff_eq_none.1 (Bool.and_eq_true_iff.1 h).1

/-- A term that has the name of a reference is that reference. -/
theorem eq_reference_of_reference? {t : Term} {name : String} (h : t.reference? = some name) :
    t = reference name := by
  cases t with
  | reference => exact congrArg reference (Option.some.inj h)
  | _ => cases h

/-- A term without captures that is not concrete is a reference. -/
theorem eq_reference_of_not_isConcrete {t : Term} (h : t.isConcrete = false)
    (hfree : t.hasCapture = false) : ∃ name, t = reference name := by
  cases t with
  | reference name => exact ⟨name, rfl⟩
  | capture => cases hfree
  | _ => cases h

/-! ### Going down -/

/-- The size of some terms is the sum of their sizes. -/
theorem sizeAll_eq (ts : List Term) : sizeAll ts = (ts.map size).sum := by
  induction ts with
  | nil => rfl
  | cons t ts ih => rw [sizeAll, ih, List.map_cons, List.sum_cons]

/-- The size of some entries is that of their values. -/
theorem sizeEntries_eq (es : List (Entry Term)) : sizeEntries es = (es.map (·.value.size)).sum := by
  induction es with
  | nil => rfl
  | cons e es ih => rw [sizeEntries, ih, List.map_cons, List.sum_cons]

/-- Parts are smaller. -/
theorem size_lt_of_mem_parts {t v : Term} (h : v ∈ t.parts) : v.size < t.size := by
  have hentries : ∀ {es : List (Entry Term)}, v ∈ es.map (·.value) → v.size ≤ sizeEntries es := by
    intro es hv
    obtain ⟨e, he, rfl⟩ := List.mem_map.1 hv
    rw [sizeEntries_eq]
    exact List.le_sum_of_mem (List.mem_map.2 ⟨e, he, rfl⟩)
  -- A term counts itself besides what it holds, and a part is among what it holds.
  cases t with
  | array items =>
    have hle : v.size ≤ sizeAll items := by
      rw [sizeAll_eq]
      exact List.le_sum_of_mem (List.mem_map_of_mem h)
    rw [size]
    omega
  | listing l =>
    have hle := hentries h
    rw [size]
    omega
  | call name l internal =>
    have hle := hentries h
    cases internal <;> rw [size] <;> omega
  | rule source target =>
    rw [size]
    rcases List.mem_cons.1 h with rfl | h
    · omega
    · obtain rfl := List.mem_singleton.1 h
      omega
  | text | reference | capture => cases h

theorem size_pos (t : Term) : 0 < t.size := by
  cases t with
  | call name l internal => cases internal <;> exact Nat.succ_pos _
  | _ => exact Nat.succ_pos _

/-- **Induction on the parts of a term.** -/
theorem induction_parts {P : Term → Prop} (h : ∀ t, (∀ v ∈ t.parts, P v) → P t) (t : Term) :
    P t :=
  h t fun v hv ↦
    have : v.size < t.size := size_lt_of_mem_parts hv
    induction_parts h v
termination_by t.size

mutual

/-- **The terms that are exposed** in a term: itself, and those exposed in its parts. -/
def exposed : Term → List Term
  | array items => array items :: exposedAll items
  | listing ⟨entries, form⟩ => listing ⟨entries, form⟩ :: exposedEntries entries
  | call name ⟨entries, form⟩ internal =>
    call name ⟨entries, form⟩ internal :: exposedEntries entries
  | rule source target => rule source target :: (source.exposed ++ target.exposed)
  | text s => [text s]
  | reference name => [reference name]
  | capture name => [capture name]

/-- The terms that are exposed in some terms. -/
def exposedAll : List Term → List Term
  | [] => []
  | t :: ts => t.exposed ++ exposedAll ts

/-- The terms that are exposed in the values of some entries. -/
def exposedEntries : List (Entry Term) → List Term
  | [] => []
  | ⟨_, _, t⟩ :: es => t.exposed ++ exposedEntries es

end

theorem exposedAll_eq (ts : List Term) : exposedAll ts = ts.flatMap exposed := by
  induction ts with
  | nil => rfl
  | cons t ts ih => rw [exposedAll, ih, List.flatMap_cons]

theorem exposedEntries_eq (es : List (Entry Term)) :
    exposedEntries es = (es.map (·.value)).flatMap exposed := by
  induction es with
  | nil => rfl
  | cons e es ih => rw [exposedEntries, ih, List.map_cons, List.flatMap_cons]

/-- **A term exposes itself, and what its parts expose.** -/
theorem exposed_eq (t : Term) : t.exposed = t :: t.parts.flatMap exposed := by
  cases t with
  | array items => rw [exposed, exposedAll_eq, parts]
  | listing l => rw [exposed, exposedEntries_eq, parts, Listing.values]
  | call name l internal => rw [exposed, exposedEntries_eq, parts, Listing.values]
  | rule source target =>
    rw [exposed, parts, List.flatMap_cons, List.flatMap_cons, List.flatMap_nil, List.append_nil]
  | _ => rfl

/-- What is exposed is the term itself, or exposed in a part. -/
theorem mem_exposed {t u : Term} : u ∈ t.exposed ↔ u = t ∨ ∃ v ∈ t.parts, u ∈ v.exposed := by
  rw [exposed_eq, List.mem_cons, List.mem_flatMap]

theorem mem_exposed_of_part {t u v : Term} (hv : v ∈ t.parts) (hu : u ∈ v.exposed) :
    u ∈ t.exposed :=
  mem_exposed.2 (.inr ⟨v, hv, hu⟩)

/-- **The references of a term**, those in internal listings aside. -/
def references (t : Term) : List String := t.exposed.filterMap reference?

/-- **The captures of a term**, those in internal listings aside. -/
def captures (t : Term) : List String := t.exposed.filterMap capture?

/-- **Tidy terms**: no listing in them has a name twice. -/
def IsTidy (t : Term) : Prop := ∀ u ∈ t.exposed, Listing.Distinct u.entries

instance (t : Term) : Decidable t.IsTidy := inferInstanceAs (Decidable (∀ u ∈ t.exposed, _))

section

variable {t v : Term} {name : String}

/-- The references of a part are references of the term. -/
theorem mem_references_of_part (hv : v ∈ t.parts) (h : name ∈ v.references) :
    name ∈ t.references := by
  obtain ⟨u, hu, hname⟩ := List.mem_filterMap.1 h
  exact List.mem_filterMap.2 ⟨u, mem_exposed_of_part hv hu, hname⟩

/-- The captures of a part are captures of the term. -/
theorem mem_captures_of_part (hv : v ∈ t.parts) (h : name ∈ v.captures) : name ∈ t.captures := by
  obtain ⟨u, hu, hname⟩ := List.mem_filterMap.1 h
  exact List.mem_filterMap.2 ⟨u, mem_exposed_of_part hv hu, hname⟩

/-- A reference occurs in a reference or in a part. -/
theorem mem_references_cases (h : name ∈ t.references) :
    t = reference name ∨ ∃ v ∈ t.parts, name ∈ v.references := by
  obtain ⟨u, hu, hname⟩ := List.mem_filterMap.1 h
  rcases mem_exposed.1 hu with rfl | ⟨v, hv, hu⟩
  · left
    cases u with
    | reference => exact congrArg reference (Option.some.inj hname)
    | _ => cases hname
  · exact .inr ⟨v, hv, List.mem_filterMap.2 ⟨u, hu, hname⟩⟩

/-- What holds of the references of all parts holds of those of the term. -/
theorem forall_references_of_parts {P : String → Prop} (ht : t.reference? = none)
    (h : ∀ v ∈ t.parts, ∀ x ∈ v.references, P x) : ∀ x ∈ t.references, P x := by
  intro x hx
  rcases mem_references_cases hx with rfl | ⟨v, hv, hx⟩
  · cases ht
  · exact h v hv x hx

/-- A capture occurs in a capture or in a part. -/
theorem mem_captures_cases (h : name ∈ t.captures) :
    t = capture name ∨ ∃ v ∈ t.parts, name ∈ v.captures := by
  obtain ⟨u, hu, hname⟩ := List.mem_filterMap.1 h
  rcases mem_exposed.1 hu with rfl | ⟨v, hv, hu⟩
  · left
    cases u with
    | capture => exact congrArg capture (Option.some.inj hname)
    | _ => cases hname
  · exact .inr ⟨v, hv, List.mem_filterMap.2 ⟨u, hu, hname⟩⟩

/-- A term that exposes no capture has no part that does. -/
theorem captures_part (h : t.captures = []) (hv : v ∈ t.parts) : v.captures = [] :=
  List.eq_nil_iff_forall_not_mem.2 fun _ hn ↦
    List.eq_nil_iff_forall_not_mem.1 h _ (mem_captures_of_part hv hn)

theorem mem_references_self (name : String) : name ∈ (reference name).references :=
  List.mem_singleton_self name

theorem mem_captures_self (name : String) : name ∈ (capture name).captures :=
  List.mem_singleton_self name

theorem isTidy_reference (name : String) : (reference name).IsTidy := by
  intro u hu
  obtain rfl := List.mem_singleton.1 hu
  exact ⟨.inl nofun, List.nodup_nil⟩

/-- The parts of a tidy term are tidy. -/
theorem IsTidy.part (h : t.IsTidy) (hv : v ∈ t.parts) : v.IsTidy :=
  fun u hu ↦ h u (mem_exposed_of_part hv hu)

/-- The entries of a tidy term are distinct. -/
theorem IsTidy.entries (h : t.IsTidy) : Listing.Distinct t.entries :=
  h t (mem_exposed.2 (.inl rfl))

/-- So those of the same name have the same value: they are the same entry. -/
theorem IsTidy.unambiguous (h : t.IsTidy) : Listing.Unambiguous t.entries :=
  Listing.unambiguous_of_nodup h.entries.2

/-- A term is tidy just when its own entries are distinct and its parts are tidy. -/
theorem isTidy_iff : t.IsTidy ↔ Listing.Distinct t.entries ∧ ∀ v ∈ t.parts, v.IsTidy := by
  refine ⟨fun h ↦ ⟨h.entries, fun v ↦ h.part⟩, fun ⟨hentries, hparts⟩ u hu ↦ ?_⟩
  rcases mem_exposed.1 hu with rfl | ⟨v, hv, hu⟩
  · exact hentries
  · exact hparts v hv u hu

/-- **A term is paired with itself** part by part, if its entries are uniform and unambiguous. -/
theorem pairing_self (hconcrete : t.isConcrete = true) (hu : Listing.Uniform t.entries)
    (h : Listing.Unambiguous t.entries) :
    t.pairing t = some (t.parts.map fun v ↦ (v, v)) := by
  cases t with
  | reference | capture => cases hconcrete
  | text s => exact if_pos rfl
  | array items =>
    have hfits : Matching.fits items items = true := by simp [Matching.fits]
    rw [pairing, if_pos hfits, parts]
    exact congrArg some (Listing.zip_self items)
  | listing l => exact Listing.pairing_self hu h
  | call name l internal =>
    rw [pairing, if_pos rfl]
    exact Listing.pairing_self hu h
  | rule => rfl

/-- A part that holds a capture makes the term hold one. -/
theorem hasCapture_of_part (hv : v ∈ t.parts) (h : v.hasCapture = true) : t.hasCapture = true := by
  have hentries : ∀ {es : List (Entry Term)}, v ∈ es.map (·.value) →
      anyEntryCapture es = true := by
    intro es hv
    obtain ⟨e, he, rfl⟩ := List.mem_map.1 hv
    rw [anyEntryCapture_eq]
    exact List.any_eq_true.2 ⟨e, he, h⟩
  -- Kind by kind: a capture is looked for in all that a term holds, internal listings included.
  cases t with
  | array items =>
    rw [hasCapture, anyCapture_eq]
    exact List.any_eq_true.2 ⟨v, hv, h⟩
  | listing l => exact hentries hv
  | call name l internal =>
    cases internal with
    | none => exact hentries hv
    | some es => exact Bool.or_eq_true_iff.2 (.inl (hentries hv))
  | rule source target =>
    rw [hasCapture, Bool.or_eq_true]
    rcases List.mem_cons.1 hv with rfl | hv
    · exact .inl h
    · obtain rfl := List.mem_singleton.1 hv
      exact .inr h
  | text | reference | capture => cases hv

/-- A term without captures has no part with one. -/
theorem hasCapture_part (h : t.hasCapture = false) (hv : v ∈ t.parts) : v.hasCapture = false :=
  Bool.eq_false_iff.2 fun hcapture ↦ by
    rw [hasCapture_of_part hv hcapture] at h
    cases h

end

/-- A term without captures exposes none. -/
theorem captures_eq_nil (t : Term) (h : t.hasCapture = false) : t.captures = [] := by
  refine List.eq_nil_iff_forall_not_mem.2 ?_
  induction t using induction_parts with
  | h t ih =>
    intro name hname
    rcases mem_captures_cases hname with rfl | ⟨v, hv, hname⟩
    · cases h
    · exact ih v hv (hasCapture_part h hv) name hname

end Term

end TermRegistry
