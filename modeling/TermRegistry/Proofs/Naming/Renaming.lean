import TermRegistry.Proofs.Matching.Locality
import TermRegistry.Proofs.Naming.Minting
import TermRegistry.Proofs.References

/-!
# Contexts that differ in minted names

Two courses of the same construction that mint different numbers lead to contexts that differ in
names alone, if the numbers are mentioned nowhere. `Context.Renamed names` relates such contexts:
they look alike under all other names, entry by entry they hold objects that look alike, and no term
in them mentions one of the names. Whatever a construction asks is then answered alike: values are
read by references, which are other names, and matching goes through the entries in order and looks
at their terms (`Context.Renamed.singleMatch`).

Links are where the difference shows up inside components. `Component.blank` takes it out, by
leaving of each link nothing but its namespace; setting parameters does not look further.
-/

namespace TermRegistry

/-- **A term avoids some names** if it does not mention them. -/
def Term.Avoids (t : Term) (names : Set String) : Prop := ∀ x ∈ t.references, x ∉ names

/-- What a term does not mention, its parts do not mention either. -/
theorem Term.Avoids.part {t v : Term} {names : Set String} (h : t.Avoids names) (hv : v ∈ t.parts) :
    v.Avoids names :=
  fun x hx ↦ h x (mem_references_of_part hv hx)

/-! ### Results -/

/-- Two computations **go together** if both of them fail, or their values are related. -/
inductive Parallel {ε α β : Type} (R : α → β → Prop) : Except ε α → Except ε β → Prop
  | ok {a : α} {b : β} (h : R a b) : Parallel R (.ok a) (.ok b)
  | error (e e' : ε) : Parallel R (.error e) (.error e')

/-- Computations that agree, the error included, go together. -/
theorem Agree.parallel {ε α β : Type} {R R' : α → β → Prop} {x : Except ε α} {y : Except ε β}
    (h : Agree R x y) (hR : ∀ a b, R a b → R' a b) : Parallel R' x y := by
  cases h with
  | ok h => exact .ok (hR _ _ h)
  | error e => exact .error e e

/-- Computations that go together go on together, if their continuations do from related values. -/
theorem Parallel.bind {ε α β γ δ : Type} {R : α → β → Prop} {S : γ → δ → Prop} {x : Except ε α}
    {y : Except ε β} {f : α → Except ε γ} {g : β → Except ε δ} (h : Parallel R x y)
    (hf : ∀ a b, x = .ok a → R a b → Parallel S (f a) (g b)) :
    Parallel S (x.bind f) (y.bind g) := by
  cases h with
  | ok h => exact hf _ _ rfl h
  | error e e' => exact .error e e'

/-! ### Components without their links -/

/-- What a value resolved to, of an entry only the namespace. -/
def Resolved.blank : Resolved → Resolved
  | literal t => literal t
  | entry link => entry ⟨link.ns, "", default⟩

/-- Values that look alike are the same without their links. -/
theorem Resolved.Alike.blank_eq {r r' : Resolved} (h : r.Alike r') : r.blank = r'.blank := by
  cases h with
  | same => rfl
  | entry hns => rw [Resolved.blank, Resolved.blank, hns]

/-- Which values a parameter takes depends on no more of a link than its namespace. -/
@[simp] theorem ParameterKind.takes_blank (kind : ParameterKind) (r : Resolved) :
    kind.takes r.blank = kind.takes r := by
  cases r with
  | literal => rfl
  | entry => cases kind <;> rfl

/-- A value of a parameter, of its link only the namespace. -/
def Argument.blank (a : Argument) : Argument := ⟨a.written, a.resolved.blank⟩

namespace Component

/-- **A component without its links**: only their namespaces are left. -/
def blank (c : Component) : Component :=
  { c with values := c.values.map fun v ↦ (v.1, v.2.blank) }

variable {c d : Component} {names : Set String}

/-- Taking the links out of all values takes them out of the one that is looked up. -/
theorem lookup_blank (values : List (String × Argument)) (name : String) :
    (values.map fun v ↦ (v.1, v.2.blank)).lookup name =
      (values.lookup name).map Argument.blank := by
  induction values with
  | nil => rfl
  | cons v values ih =>
    rw [List.map_cons, List.lookup_cons, List.lookup_cons, ih]
    split <;> rfl

/-- A value can be put in before or after the links are taken out. -/
theorem put_blank (values : List (String × Argument)) (name : String) (a : Argument) :
    put (values.map fun v ↦ (v.1, v.2.blank)) name a.blank =
      (put values name a).map fun v ↦ (v.1, v.2.blank) := by
  rw [put, put, lookup_blank, Option.isSome_map]
  -- Either the name has a value, which is replaced in its place, or the value is added at the end.
  split
  · rw [List.map_map, List.map_map]
    refine List.map_congr_left fun v _ ↦ ?_
    simp only [Function.comp_apply]
    split <;> rfl
  · rw [List.map_append]
    rfl

/-- A component without its links has the same parameters. -/
@[simp] theorem names_blank (c : Component) : c.blank.names = c.names := by
  have hschema : c.blank.schema? = c.schema? := rfl
  have hvalues : c.blank.values.map Prod.fst = c.values.map Prod.fst := List.map_map
  rw [names, names, hschema, hvalues]

@[simp] theorem kind?_blank (c : Component) (name : String) : c.blank.kind? name = c.kind? name :=
  rfl

@[simp] theorem get?_blank (c : Component) (name : String) : c.blank.get? name = c.get? name := by
  have hargument : c.blank.argument? name = (c.argument? name).map Argument.blank :=
    lookup_blank c.values name
  rw [get?, get?, hargument]
  cases c.argument? name <;> rfl

/-- The links of a component do not show in its term. -/
@[simp] theorem toTerm_blank (c : Component) : c.blank.toTerm = c.toTerm := by
  have hget : c.blank.get? = c.get? := funext c.get?_blank
  rw [toTerm, toTerm, names_blank, hget]
  rfl

/-- Setting a parameter does not look at links further than at their namespaces. -/
theorem set_blank (c : Component) (name : String) (a : Argument) :
    c.blank.set name a.blank = (c.set name a).map blank := by
  have htakes (kind : ParameterKind) : kind.takes a.blank.resolved = kind.takes a.resolved :=
    kind.takes_blank a.resolved
  rw [set, set, kind?_blank]
  cases c.kind? name with
  | none => rfl
  | some kind =>
    simp only [htakes]
    split
    · exact congrArg (fun values ↦ Except.ok { c with values }) (put_blank c.values name a)
    · rfl

/-- The internal listing has nothing to do with links. -/
theorem withInternal_blank (c : Component) (internal : Option (List (Entry Term))) :
    (c.withInternal internal).blank = c.blank.withInternal internal := by
  cases internal <;> rfl

/-- **A component avoids some names** if no term that it shows for a parameter mentions them. -/
def Avoids (c : Component) (names : Set String) : Prop :=
  ∀ n t, c.get? n = some t → t.Avoids names

/-- A component goes on avoiding the names if the new value of a parameter avoids them. -/
theorem Avoids.set (h : c.Avoids names) {name : String} {a : Argument} (hset : c.set name a = .ok d)
    (ha : a.written.Avoids names) : d.Avoids names := by
  intro n t ht
  rw [get?_set hset] at ht
  split at ht
  · cases ht
    exact ha
  · exact h n t ht

/-- An internal listing adds no reference that is exposed. -/
theorem Avoids.withInternal (h : c.Avoids names) (internal : Option (List (Entry Term))) :
    (c.withInternal internal).Avoids names := by
  cases internal with
  | none => exact h
  | some _ => exact h

/-- What avoids the names parameter by parameter does so as a term. -/
theorem Avoids.toTerm (h : c.Avoids names) : c.toTerm.Avoids names :=
  c.forall_references_toTerm h

/-- **Components that are renamed** differ in their links alone, and avoid the names. -/
structure Renamed (names : Set String) (c d : Component) : Prop where
  blank_eq : c.blank = d.blank
  avoids : c.Avoids names

namespace Renamed

theorem refl (h : c.Avoids names) : Renamed names c c := ⟨rfl, h⟩

/-- Renamed components have the same parameters. -/
theorem names_eq (h : Renamed names c d) : c.names = d.names := by
  rw [← names_blank, h.blank_eq, names_blank]

/-- Components that differ in their links have the same parameters. -/
theorem kind?_eq (h : Renamed names c d) (name : String) : c.kind? name = d.kind? name := by
  rw [← kind?_blank, h.blank_eq, kind?_blank]

/-- Renamed components show the same term: links do not show. -/
theorem toTerm_eq (h : Renamed names c d) : c.toTerm = d.toTerm := by
  rw [← toTerm_blank, h.blank_eq, toTerm_blank]

/-- Values that differ in their links alone are both taken or both refused. -/
theorem set (h : Renamed names c d) (name : String) {t : Term} (ht : t.Avoids names)
    {r r' : Resolved} (hr : r.blank = r'.blank) :
    Parallel (Renamed names) (c.set name ⟨t, r⟩) (d.set name ⟨t, r'⟩) := by
  have hargument : Argument.blank ⟨t, r⟩ = Argument.blank ⟨t, r'⟩ := congrArg (Argument.mk t) hr
  have heq : (c.set name ⟨t, r⟩).map blank = (d.set name ⟨t, r'⟩).map blank := by
    rw [← set_blank, ← set_blank, h.blank_eq, hargument]
  -- Without their links both results are the same, so one cannot fail and the other succeed.
  cases hset : c.set name ⟨t, r⟩ with
  | error e =>
    cases hset' : d.set name ⟨t, r'⟩ with
    | error e' => exact .error e e'
    | ok d' =>
      rw [hset, hset'] at heq
      cases heq
  | ok c' =>
    cases hset' : d.set name ⟨t, r'⟩ with
    | error e' =>
      rw [hset, hset'] at heq
      cases heq
    | ok d' =>
      rw [hset, hset'] at heq
      exact .ok ⟨Except.ok.inj heq, h.avoids.set hset ht⟩

/-- They may be given the same internal listing. -/
theorem withInternal (h : Renamed names c d) (internal : Option (List (Entry Term))) :
    Renamed names (c.withInternal internal) (d.withInternal internal) := by
  refine ⟨?_, h.avoids.withInternal internal⟩
  rw [withInternal_blank, withInternal_blank, h.blank_eq]

end Renamed

end Component

/-- **Factories avoid some names** if no default of a parameter mentions them. -/
def Factories.Avoids (f : Factories) (names : Set String) : Prop :=
  ∀ p ∈ f.registered, ∀ q ∈ p.blueprint.schema?.getD [], ∀ v, q.default? = some v → v.Avoids names

/-- New components avoid what the defaults avoid. -/
theorem Factories.Avoids.instantiate {f : Factories} {names : Set String} (h : f.Avoids names)
    {ns : Namespace} {name : String} {p : Prototype} (hp : p ∈ f.prototypes ns name) :
    p.instantiate.Avoids names := by
  intro n t ht
  obtain ⟨p, hmem, q, hq, hdefault⟩ := exists_default hp ht
  exact h p hmem q hq t hdefault

/-! ### Entries -/

/-- **Entries that are renamed**: they are in the same namespace, and what they hold looks alike. -/
structure Kept.Renamed (k l : Kept) : Prop where
  ns_eq : k.ns = l.ns
  content : k.content.Alike l.content

namespace Kept

variable {k l : Kept}

/-- Entries that look alike differ in their names at most. -/
theorem Alike.renamed (h : k.Alike l) : k.Renamed l := ⟨h.ns_eq, h.content⟩

namespace Renamed

/-- Renamed entries show the same term. -/
theorem toTerm_eq (h : k.Renamed l) : k.toTerm = l.toTerm := h.content.toTerm_eq

/-- Links to renamed entries are the same but for what is taken out of them. -/
theorem blank_link (h : k.Renamed l) :
    (Resolved.entry k.link).blank = (Resolved.entry l.link).blank := by
  show Resolved.entry ⟨k.ns, "", default⟩ = Resolved.entry ⟨l.ns, "", default⟩
  rw [h.ns_eq]

end Renamed

end Kept

/-- The weight of a storage depends on the terms in it and not on their names. -/
theorem Storage.weightOf_eq {es ds : List (String × Term)}
    (h : List.Forall₂ (fun e d ↦ e.2 = d.2) es ds) : weightOf es = weightOf ds := by
  induction h with
  | nil => rfl
  | cons hterm _ ih =>
    show _ + weightOf _ = _ + weightOf _
    rw [hterm, ih]

/-! ### Contexts -/

namespace Context

/-- **Contexts that are renamed** differ in some of the given names alone. All numbers from their
counters on are among these names, and no term or default mentions them. -/
structure Renamed (names : Set String) (ctx ctx' : Context) : Prop where
  coherent : ctx.Coherent
  coherent' : ctx'.Coherent
  under : AlikeUnder namesᶜ ctx ctx'
  counts : ∀ n, ctx.counter ≤ n → n.repr ∈ names
  counts' : ∀ n, ctx'.counter ≤ n → n.repr ∈ names
  entries : ∀ ns, List.Forall₂ Kept.Renamed (ctx.inNamespace ns) (ctx'.inNamespace ns)
  avoids : ∀ ns name k, ctx.find? ns name = some k → k.toTerm.Avoids names
  defaults : ctx.factories.Avoids names

/-- The other namespaces do not get an entry. -/
theorem inNamespace_keep_of_ne {ctx : Context} {ns ns' : Namespace} {name : String} {x : Content}
    (hfree : ctx.contains ns name = false) (hns : ns' ≠ ns) :
    (ctx.keep ns name x).2.inNamespace ns' = ctx.inNamespace ns' := by
  show ((ctx.keep ns name x).2.names ns').filterMap ((ctx.keep ns name x).2.find? ns') = _
  rw [names_keep hfree, if_neg hns]
  refine List.filterMap_congr fun n _ ↦ ?_
  rw [find?_keep hfree, if_neg fun hplace ↦ hns hplace.1]
  rfl

namespace Renamed

variable {names : Set String} {ctx ctx' after after' : Context} {ns : Namespace} {t : Term}

/-- A context is a renaming of itself, if no term in it mentions a number that can still be
minted. -/
theorem refl (hc : ctx.Coherent) (hcounts : ∀ n, ctx.counter ≤ n → n.repr ∈ names)
    (havoids : ∀ ns name k, ctx.find? ns name = some k → k.toTerm.Avoids names)
    (hdefaults : ctx.factories.Avoids names) : Renamed names ctx ctx where
  coherent := hc
  coherent' := hc
  under := ⟨rfl, fun ns name _ ↦ by
    cases ctx.find? ns name with
    | none => exact .none
    | some k => exact .some ⟨rfl, rfl, .same _⟩⟩
  counts := hcounts
  counts' := hcounts
  entries _ := List.forall₂_same.2 fun _ _ ↦ ⟨rfl, .same _⟩
  avoids := havoids
  defaults := hdefaults

/-- Other numbers to mint from make no difference. -/
theorem raised (h : Renamed names ctx ctx') (hr : ctx.Raised after) (hr' : ctx'.Raised after') :
    Renamed names after after' where
  coherent := hr.coherent h.coherent
  coherent' := hr'.coherent h.coherent'
  under := by
    refine ⟨hr.factories_eq.trans (h.under.factories_eq.trans hr'.factories_eq.symm), ?_⟩
    intro ns name hname
    rw [hr.find?_eq, hr'.find?_eq]
    exact h.under.found ns name hname
  counts n hn := h.counts n (Nat.le_trans hr.counter_le hn)
  counts' n hn := h.counts' n (Nat.le_trans hr'.counter_le hn)
  entries ns := by
    rw [hr.inNamespace_eq, hr'.inNamespace_eq]
    exact h.entries ns
  avoids ns name k hk := by
    rw [hr.find?_eq] at hk
    exact h.avoids ns name k hk
  defaults := by
    rw [hr.factories_eq]
    exact h.defaults

/-- Either context may have a number used up, be it the same or not. -/
theorem mint (h : Renamed names ctx ctx') (ns : Namespace) :
    Renamed names (ctx.withCounter (ctx.nextNumber ns + 1))
      (ctx'.withCounter (ctx'.nextNumber ns + 1)) :=
  h.raised (.mint ctx ns) (.mint ctx' ns)

/-- The next number to be minted is one of the names in which the contexts may differ. -/
theorem nextNumber_mem (h : Renamed names ctx ctx') (ns : Namespace) :
    (ctx.nextNumber ns).repr ∈ names :=
  h.counts _ (ctx.registry.counter_le_nextNumber ns)

theorem nextNumber_mem' (h : Renamed names ctx ctx') (ns : Namespace) :
    (ctx'.nextNumber ns).repr ∈ names :=
  h.counts' _ (ctx'.registry.counter_le_nextNumber ns)

/-- **Objects that look alike are kept under different names.** -/
theorem keep (h : Renamed names ctx ctx') {name name' : String} {x y : Content} (hxy : x.Alike y)
    (hname : name ∈ names) (hname' : name' ∈ names) (hfree : ctx.contains ns name = false)
    (hfree' : ctx'.contains ns name' = false) (hx : x.suits ns = true) (hy : y.suits ns = true)
    (havoids : x.toTerm.Avoids names) :
    Renamed names (ctx.keep ns name x).2 (ctx'.keep ns name' y).2 where
  coherent := h.coherent.keep hx
  coherent' := h.coherent'.keep hy
  under := by
    refine ⟨h.under.factories_eq, fun ns' n hn ↦ ?_⟩
    -- Under a name that is not among the given ones, neither new entry is found.
    rw [find?_keep hfree, find?_keep hfree', if_neg, if_neg]
    · exact h.under.found ns' n hn
    · rintro ⟨-, rfl⟩
      exact hn hname'
    · rintro ⟨-, rfl⟩
      exact hn hname
  counts n hn := h.counts n (counter_keep ▸ hn)
  counts' n hn := h.counts' n (counter_keep ▸ hn)
  entries ns' := by
    -- Both new entries come last in their namespace, so places correspond.
    by_cases hns : ns' = ns
    · subst hns
      rw [inNamespace_keep h.coherent hfree, inNamespace_keep h.coherent' hfree']
      exact List.rel_append (h.entries ns') (.cons ⟨rfl, hxy⟩ .nil)
    · rw [inNamespace_keep_of_ne hfree hns, inNamespace_keep_of_ne hfree' hns]
      exact h.entries ns'
  avoids ns' n k hk := by
    rw [find?_keep hfree] at hk
    split at hk
    · cases hk
      exact havoids
    · exact h.avoids ns' n k hk
  defaults := h.defaults

/-! ### Matching -/

/-- References are resolved alike. -/
theorem resolve_eq (h : Renamed names ctx ctx') {name : String} (hname : name ∈ namesᶜ) :
    ctx.storage.resolve name = ctx'.storage.resolve name := by
  rw [storage_resolve h.coherent, storage_resolve h.coherent']
  have hfound := h.under.lookup? hname
  generalize ctx.lookup? name = x at hfound ⊢
  generalize ctx'.lookup? name = y at hfound ⊢
  cases hfound with
  | none => rfl
  | some hk => exact congrArg some hk.toTerm_eq

/-- The bound on the depth of a match is the same in renamed contexts. -/
theorem weight_eq (h : Renamed names ctx ctx') : ctx.storage.weight = ctx'.storage.weight := by
  refine Storage.weightOf_eq (List.rel_flatMap (R := Eq) (List.forall₂_refl _) ?_)
  rintro ns _ rfl
  rw [List.forall₂_map_left_iff, List.forall₂_map_right_iff]
  exact (h.entries ns).imp fun k l hk ↦ hk.toTerm_eq

/-- What is stored under another name refers to other names only. -/
theorem closed (h : Renamed names ctx ctx') : Closed ctx.storage.resolve namesᶜ := by
  intro x _ u hu
  rw [storage_resolve h.coherent] at hu
  obtain ⟨k, hk, rfl⟩ := Option.map_eq_some_iff.1 hu
  exact h.avoids k.ns k.name k (find?_of_lookup? hk)

/-- **Matching is the same in renamed contexts**, for terms that avoid the names. -/
theorem matching_eq (h : Renamed names ctx ctx') {p c : Term} (hp : p.Avoids names)
    (hc : c.Avoids names) : p.matching ctx.storage c = p.matching ctx'.storage c :=
  Term.matching_congr h.closed (fun _ ↦ h.resolve_eq) h.weight_eq hp hc

/-- So is the question whether a pattern matches at all. -/
theorem matches_eq (h : Renamed names ctx ctx') {p c : Term} (hp : p.Avoids names)
    (hc : c.Avoids names) : p.matches ctx.storage c = p.matches ctx'.storage c := by
  rw [Term.matches, Term.matches, h.matching_eq hp hc]

/-- The entries that a pattern matches stand in the same places. -/
theorem matched (h : Renamed names ctx ctx') {pattern : Term} (hp : pattern.Avoids names)
    {ks ls : List Kept} (hkl : List.Forall₂ Kept.Renamed ks ls)
    (hks : ∀ k ∈ ks, k.toTerm.Avoids names) :
    Agree (List.Forall₂ Kept.Renamed) (matched ctx.storage pattern ks)
      (matched ctx'.storage pattern ls) := by
  induction hkl with
  | nil => exact .ok .nil
  | @cons k l ks ls hk _ ih =>
    obtain ⟨hkavoids, hks⟩ := List.forall_mem_cons.1 hks
    have heq : pattern.matching ctx.storage k.toTerm = pattern.matching ctx'.storage l.toTerm := by
      rw [h.matching_eq hp hkavoids, hk.toTerm_eq]
    refine (Agree.of_eq heq).bind ?_
    rintro m _ rfl
    refine (ih hks).bind fun ks ls hrest ↦ ?_
    -- The match of the first entry is the same on both sides, so both are taken or neither is.
    cases m with
    | none => exact .ok hrest
    | some _ => exact .ok (.cons hk hrest)

/-- **A definition matches the entry in the same place**, or none in either context, or several. -/
theorem singleMatch (h : Renamed names ctx ctx') {pattern : Term} (hp : pattern.Avoids names)
    (ns : Namespace) :
    Parallel (Option.Rel Kept.Renamed) (ctx.singleMatch ns pattern)
      (ctx'.singleMatch ns pattern) := by
  have hks : ∀ k ∈ ctx.inNamespace ns, k.toTerm.Avoids names := fun k hk ↦
    h.avoids k.ns k.name k (find?_of_mem_inNamespace hk).2
  refine ((h.matched hp (h.entries ns) hks).parallel fun _ _ ↦ id).bind
    fun ks ls hmatched hfound ↦ ?_
  have hexact : List.Forall₂ Kept.Renamed (ks.filter fun k ↦ k.toTerm.matches ctx.storage pattern)
      (ls.filter fun k ↦ k.toTerm.matches ctx'.storage pattern) := by
    have hks' : ∀ k ∈ ks, k.toTerm.Avoids names := fun k hk ↦ hks k (mem_of_matched hmatched hk)
    clear hmatched
    induction hfound with
    | nil => exact .nil
    | @cons k l ks ls hk _ ih =>
      obtain ⟨hkavoids, hks'⟩ := List.forall_mem_cons.1 hks'
      rw [List.filter_cons, List.filter_cons, h.matches_eq hkavoids hp, hk.toTerm_eq]
      split
      · exact .cons hk (ih hks')
      · exact ih hks'
  cases hfound with
  | nil => exact .ok .none
  | cons hk hrest =>
    cases hrest with
    | nil => exact .ok (.some hk)
    | cons hk' hrest' =>
      -- Several entries match, so the ones that match in turn decide.
      simp only
      generalize List.filter _ _ = exact at hexact ⊢
      generalize List.filter _ _ = exact' at hexact ⊢
      cases hexact with
      | nil => exact .error _ _
      | cons hk hrest =>
        cases hrest with
        | nil => exact .ok (.some hk)
        | cons _ _ => exact .error _ _

end Renamed

end Context

end TermRegistry
