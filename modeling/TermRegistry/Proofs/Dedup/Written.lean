import TermRegistry.Proofs.Building
import TermRegistry.Proofs.Matching.Reordering

/-!
# What is built matches what it was built from

A component answers for each parameter that was set with the term that was written for it, in its
canonical order and under its own generic name. So the term of a component has, under the same
names, all that was written in the definition, and the defaults of other parameters beside it. A
definition whose parameters are named looks for nothing else, and matches the term of what was built
from it (`Builds.relates_toTerm`). Arrays, texts and rule sets answer with the very term they were
built from, or with all of it that matching looks at.

Positional parameters are ruled out: the term of a component has names for all of them, and a
positional listing does not match a named one.
-/

namespace TermRegistry

/-! ### Parameters that are set -/

namespace Component

variable {c c' : Component} {name n : String} {a : Argument} {v : Term}

theorem lookup_put (values : List (String × Argument)) (name n : String) (a : Argument) :
    (put values name a).lookup n = if n = name then some a else values.lookup n := by
  rw [put]
  split
  · next hset =>
    split
    · next heq =>
      rw [heq]
      exact lookup_replace_self hset
    · next hne => exact lookup_replace_of_ne hne
  · next hnone =>
    have hfree : values.lookup name = none := Option.not_isSome_iff_eq_none.1 hnone
    rw [List.lookup_append]
    split
    · next heq =>
      rw [heq, hfree]
      exact List.lookup_cons_self
    · next hne =>
      rw [List.lookup_cons, beq_false_of_ne hne]
      exact Option.or_none

/-- What setting a parameter changes. -/
theorem eq_of_set (h : c.set name a = .ok c') :
    (c.kind? name).isSome = true ∧ c' = { c with values := put c.values name a } := by
  rw [set] at h
  split at h
  · cases h
  · next kind hkind =>
    split at h
    · cases h
      exact ⟨by rw [hkind]; rfl, rfl⟩
    · cases h

/-- **A term is written** for a parameter that the component has. -/
structure Writes (c : Component) (name : String) (v : Term) : Prop where
  has : (c.kind? name).isSome = true
  written : (c.argument? name).map (·.written) = some v

theorem writes_of_set (h : c.set name ⟨v, a.resolved⟩ = .ok c') : c'.Writes name v := by
  obtain ⟨hkind, rfl⟩ := eq_of_set h
  refine ⟨hkind, ?_⟩
  show ((put c.values name _).lookup name).map _ = _
  rw [lookup_put, if_pos rfl]
  rfl

theorem Writes.set (hw : c.Writes n v) (hn : n ≠ name) (h : c.set name a = .ok c') :
    c'.Writes n v := by
  obtain ⟨-, rfl⟩ := eq_of_set h
  refine ⟨hw.has, ?_⟩
  show ((put c.values name a).lookup n).map _ = _
  rw [lookup_put, if_neg hn]
  exact hw.written

theorem Writes.get? (hw : c.Writes name v) : c.get? name = some v := by
  obtain ⟨a, ha, rfl⟩ := Option.map_eq_some_iff.1 hw.written
  rw [Component.get?, ha]

theorem Writes.mem_names (hw : c.Writes name v) : name ∈ c.names := by
  rw [names]
  cases hschema : c.schema? with
  | none =>
    obtain ⟨a, ha, -⟩ := Option.map_eq_some_iff.1 hw.written
    obtain ⟨before, after, hvalues, -⟩ := List.lookup_eq_some_iff.1 ha
    rw [hvalues, List.map_append]
    exact List.mem_append_right _ List.mem_cons_self
  | some schema =>
    obtain ⟨kind, hkind⟩ := Option.isSome_iff_exists.1 hw.has
    rw [kind?, hschema] at hkind
    obtain ⟨p, hp, -⟩ := Option.map_eq_some_iff.1 hkind
    rw [declared?, hschema] at hp
    have hname : p.name = name := by simpa using List.find?_some hp
    exact List.mem_map.2 ⟨p, List.mem_of_find?_eq_some hp, hname⟩

theorem Writes.withInternal (hw : c.Writes name v) (internal : Option (List (Entry Term))) :
    (c.withInternal internal).Writes name v := by
  cases internal with
  | none => exact hw
  | some es => exact ⟨hw.has, hw.written⟩

/-! ### The term of a component -/

/-- The parameters in the term of a component. -/
def parameters (c : Component) : Listing Term :=
  ⟨c.names.filterMap fun name ↦ (c.get? name).map fun t ↦ ⟨.named name, [], t⟩, .parameters⟩

theorem toTerm_eq (c : Component) : c.toTerm = .call c.genericName c.parameters c.internal? := rfl

theorem mem_parameters {e : Entry Term} : e ∈ c.parameters.entries ↔
    ∃ name ∈ c.names, ∃ t, c.get? name = some t ∧ ⟨.named name, [], t⟩ = e := by
  refine List.mem_filterMap.trans (exists_congr fun name ↦ and_congr_right fun _ ↦ ?_)
  exact Option.map_eq_some_iff

/-- Under the name of a parameter stands what was written for it. -/
theorem Writes.get?_parameters (hw : c.Writes name v) : c.parameters.get? name = some v := by
  have hmem : (⟨.named name, [], v⟩ : Entry Term) ∈ c.parameters.entries :=
    mem_parameters.2 ⟨name, hw.mem_names, v, hw.get?, rfl⟩
  have hsome : (c.parameters.get? name).isSome = true := by
    rw [Listing.get?, Option.isSome_map, List.find?_isSome]
    exact ⟨_, hmem, beq_self_eq_true _⟩
  obtain ⟨u, hu⟩ := Option.isSome_iff_exists.1 hsome
  obtain ⟨e, he, hname, rfl⟩ := Listing.exists_entry_of_get? hu
  obtain ⟨n, -, t, ht, rfl⟩ := mem_parameters.1 he
  obtain rfl : n = name := Option.some.inj hname
  rw [hu, ← hw.get?, ht]

theorem isNamed_parameters (h : c.parameters.entries ≠ []) : c.parameters.isNamed = true := by
  have hnamed : ∀ e ∈ c.parameters.entries, e.name?.isSome = true := by
    intro e he
    obtain ⟨name, -, t, -, rfl⟩ := mem_parameters.1 he
    rfl
  rw [Listing.isNamed_of_forall hnamed, Listing.isEmpty, Bool.not_eq_true',
    List.isEmpty_eq_false_iff]
  exact h

/-- Named parameters that are all written are found in the term of the component. -/
theorem size_le_of_writes {l : Listing Term} (hl : Listing.Distinct l.entries)
    (hnamed : l.isNamed = true)
    (hw : ∀ e ∈ l.entries, ∀ n, e.name? = some n → c.Writes n e.value) :
    l.size ≤ c.parameters.size := by
  have hsub : l.entries.filterMap (·.name?) ⊆ c.parameters.entries.filterMap (·.name?) := by
    intro n hn
    obtain ⟨e, he, hen⟩ := List.mem_filterMap.1 hn
    obtain ⟨f, hf, hfn, -⟩ := Listing.exists_entry_of_get? (hw e he n hen).get?_parameters
    exact List.mem_filterMap.2 ⟨f, hf, hfn⟩
  calc l.size = (l.entries.filterMap (·.name?)).length :=
        (List.filterMap_length_eq_length.2 (Listing.isSome_name?_of_isNamed hl.1 hnamed)).symm
    _ ≤ (c.parameters.entries.filterMap (·.name?)).length := (hl.2.subperm hsub).length_le
    _ ≤ c.parameters.size := List.length_filterMap_le _ _

/-- **What is written is paired with itself** in the term of the component. -/
theorem pairing_parameters {l : Listing Term} (hl : Listing.Distinct l.entries)
    (hpositional : l.isPositional = false)
    (hw : ∀ e ∈ l.entries, ∀ n, e.name? = some n → c.Writes n e.value) :
    ∃ ds, l.pairing c.parameters = some ds ∧ ∀ d ∈ ds, d.2 = d.1 := by
  by_cases hnil : l.entries = []
  · exact ⟨[], Listing.pairing_nil hnil, nofun⟩
  · -- Each entry finds under its name what was written from it, so it is paired with itself.
    have hnamed := Listing.isNamed_of_not_isPositional hnil hpositional
    have hsize := size_le_of_writes hl hnamed hw
    have hfound : ∀ e ∈ l.entries, c.parameters.get? (e.name?.getD "") = some e.value := by
      intro e he
      have hname := Listing.isSome_name?_of_isNamed hl.1 hnamed e he
      obtain ⟨n, hn⟩ := Option.isSome_iff_exists.1 hname
      rw [hn]
      exact (hw e he n hn).get?_parameters
    have hne : c.parameters.entries ≠ [] := by
      intro hempty
      refine hnil (List.eq_nil_of_length_eq_zero (Nat.le_zero.1 (hsize.trans_eq ?_)))
      rw [Listing.size, hempty]
      rfl
    obtain ⟨ds, hds⟩ := Listing.exists_besideNamed.2 fun e he ↦ ⟨_, hfound e he⟩
    refine ⟨ds, ?_, fun d hd ↦ ?_⟩
    · rw [Listing.pairing_eq hsize (hnamed.trans (isNamed_parameters hne).symm), hnamed]
      exact hds
    · obtain ⟨e, he, hvalue, hget⟩ := (Listing.mem_besideNamed hds).1 hd
      rw [hfound e he] at hget
      rw [hvalue]
      exact (Option.some.inj hget).symm

/-- **A call by its generic name matches a component** in which all its parameters are written. -/
theorem relates_toTerm {resolve σ : String → Option Term} {l : Listing Term}
    {internal : Option (List (Entry Term))} {t : Term} (ht : t = .call c.genericName l internal)
    (hcaptures : t.captures = []) (htidy : t.IsTidy) (hpositional : l.isPositional = false)
    (hw : ∀ e ∈ l.entries, ∀ n, e.name? = some n → c.Writes n e.value) :
    Relates resolve σ t c.toTerm := by
  subst ht
  obtain ⟨ds, hds, hall⟩ := pairing_parameters htidy.entries hpositional hw
  have hpairing : (Term.call c.genericName l internal).pairing c.toTerm = some ds := by
    rw [toTerm_eq, Term.pairing, if_pos rfl, hds]
  refine .parts hpairing fun d hd ↦ ?_
  have hpart := (Term.mem_parts_of_pairing hpairing hd).1
  rw [hall d hd]
  exact .refl (Term.captures_part hcaptures hpart) (htidy.part hpart)

theorem genericName_withInternal (c : Component) (internal : Option (List (Entry Term))) :
    (c.withInternal internal).genericName = c.genericName := by
  cases internal <;> rfl

end Component

/-! ### Building -/

theorem Factories.genericName_of_prototype {f : Factories}
    (hf : ∀ p ∈ f.registered, p.blueprint.genericName = p.name) {ns : Namespace} {name : String}
    {p : Prototype} (hp : p ∈ f.prototypes ns name) : p.blueprint.genericName = name := by
  rw [prototypes] at hp
  split at hp
  · split at hp
    · obtain rfl := List.mem_singleton.1 hp
      rfl
    · cases hp
  · obtain ⟨hmem, hname⟩ := List.mem_filter.1 hp
    rw [Bool.and_eq_true] at hname
    exact (hf p hmem).trans (eq_of_beq hname.2)

theorem Context.itemTexts_eq_ok {ts : List Term} {items : List String}
    (h : itemTexts ts = .ok items) : ts = items.map .text := by
  induction ts generalizing items with
  | nil =>
    cases h
    rfl
  | cons t ts ih =>
    cases t with
    | text s =>
      obtain ⟨rest, hrest, heq⟩ := bind_eq_ok.1 h
      obtain rfl : s :: rest = items := Except.ok.inj heq
      rw [ih hrest, List.map_cons]
    | _ => cases h

/-- A definition of a rule set asks for nothing outside of its internal listing, which matching does
not look at. -/
theorem RuleSet.pairing_toTerm {t : Term} {s : RuleSet} (h : ofTerm t = .ok s) (s' : RuleSet) :
    t.pairing s'.toTerm = some [] := by
  cases t with
  | call name l internal =>
    rw [ofTerm] at h
    split at h
    · cases h
    · next hname =>
      split at h
      · cases h
      · next hempty =>
        obtain rfl : name = genericName := by simpa using hname
        have hnil : l.entries = [] := by simpa [Listing.isEmpty] using hempty
        rw [toTerm, Term.pairing, if_pos rfl, Listing.pairing_nil hnil]
  | _ => cases h

theorem RuleSet.relates_toTerm {resolve σ : String → Option Term} {t : Term} {s : RuleSet}
    (h : ofTerm t = .ok s) : Relates resolve σ t s.toTerm :=
  .parts (pairing_toTerm h s) fun _ hd ↦ absurd hd List.not_mem_nil

namespace Builds

variable {ctx ctx' : Context}

/-- **Setting named parameters writes all of them**, and leaves what was written for others. -/
theorem writes {generic : String} {names : List String} {index : Nat} {es : List (Entry Term)}
    {c c' : Component} (h : Builds ctx (.parameters generic names index es c c') ctx')
    (hnamed : ∀ e ∈ es, e.name?.isSome = true) (hnodup : (es.filterMap (·.name?)).Nodup) :
    c'.genericName = c.genericName ∧
      (∀ e ∈ es, ∀ n, e.name? = some n → c'.Writes n e.value) ∧
      ∀ n v, (∀ e ∈ es, e.name? ≠ some n) → c.Writes n v → c'.Writes n v := by
  induction es generalizing ctx c index with
  | nil =>
    cases h
    exact ⟨rfl, nofun, fun _ _ _ hw ↦ hw⟩
  | cons e es ih =>
    cases h with
    | @parameter _ _ _ _ _ _ _ _ _ c₁ _ name _ r hname _ _ hset hrest =>
      -- A named parameter is set under its own name.
      obtain ⟨n, hn⟩ := Option.isSome_iff_exists.1 (hnamed e List.mem_cons_self)
      have hlabel : e.label.name? = some n := hn
      rw [Build.parameterName, hlabel] at hname
      obtain rfl : n = name := Except.ok.inj hname
      rw [List.filterMap_cons_some hn, List.nodup_cons] at hnodup
      have hother : ∀ f ∈ es, f.name? ≠ some n := fun f hf hfn ↦
        hnodup.1 (List.mem_filterMap.2 ⟨f, hf, hfn⟩)
      obtain ⟨hgeneric, hwritten, hkept⟩ :=
        ih hrest (fun f hf ↦ hnamed f (List.mem_cons_of_mem e hf)) hnodup.2
      refine ⟨?_, fun f hf m hm ↦ ?_, fun m v hm hw ↦ ?_⟩
      · rw [hgeneric, (Component.eq_of_set hset).2]
      · rcases List.mem_cons.1 hf with rfl | hf
        · obtain rfl : n = m := Option.some.inj (hn.symm.trans hm)
          exact hkept n f.value hother (Component.writes_of_set (a := ⟨f.value, r⟩) hset)
        · exact hwritten f hf m hm
      · have hne : m ≠ n := fun heq ↦ hm e List.mem_cons_self (heq ▸ hn)
        exact hkept m v (fun f hf ↦ hm f (List.mem_cons_of_mem e hf)) (hw.set hne hset)

/-- **A definition matches what is built from it**, over any storage. -/
theorem relates_toTerm {resolve σ : String → Option Term} {t : Term} {ns : Namespace} {x : Content}
    (h : Builds ctx (.content t ns x) ctx')
    (hgeneric : ∀ p ∈ ctx.factories.registered, p.blueprint.genericName = p.name)
    (ht : t.reference? = none) (hcaptures : t.captures = []) (htidy : t.IsTidy)
    (hpositional : ∀ name l internal, t = .call name l internal → l.isPositional = false) :
    Relates resolve σ t x.toTerm := by
  cases h with
  | @array _ _ items hitems =>
    cases t with
    | array ts =>
      rw [Context.itemTexts_eq_ok hitems] at hcaptures htidy ⊢
      exact .refl hcaptures htidy
    | reference => cases ht
    | _ => cases hitems
  | value htext =>
    cases t with
    | text s =>
      cases htext
      exact .refl hcaptures htidy
    | reference => cases ht
    | _ => cases htext
  | ruleSet hs => exact RuleSet.relates_toTerm hs
  | @component _ ctx₁ _ _ name l internal p c _ _ hp _ hparameters =>
    have hname : p.blueprint.genericName = name := Factories.genericName_of_prototype hgeneric hp
    have hl := hpositional name l internal rfl
    have hdistinct : Listing.Distinct l.entries := htidy.entries
    have hnamed : ∀ e ∈ l.entries, e.name?.isSome = true := by
      by_cases hnil : l.entries = []
      · rw [hnil]
        exact nofun
      · exact Listing.isSome_name?_of_isNamed hdistinct.1
          (Listing.isNamed_of_not_isPositional hnil hl)
    obtain ⟨hgeneric', hwritten, -⟩ := hparameters.writes hnamed hdistinct.2
    have hsame : (c.withInternal internal).genericName = name := by
      rw [Component.genericName_withInternal, hgeneric', ← hname]
      rfl
    exact Component.relates_toTerm (by rw [hsame]) hcaptures htidy hl
      fun e he n hn ↦ (hwritten e he n hn).withInternal internal

end Builds

end TermRegistry
