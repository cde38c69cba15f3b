import TermRegistry.Proofs.Matching.Reordering
import TermRegistry.Proofs.Reachable

/-!
# What references stand for while a context grows

A reference is resolved to the first entry of its name in the order of resolution, and that is also
what the storage of a context makes of it (`Context.storage_resolve`). An entry that is new may hide
another one of the same name. It does no harm to what was stored before if nothing mentions its
name: then all names that are mentioned stand for what they stood for, and the references are
acyclic as they were (`Context.Coherent.steady`).

This is the one way in which construction touches the meaning of stored terms. `Context.Steady` says
what is left of it: which names keep their meaning, and that nothing else is mentioned.
-/

namespace TermRegistry

/-- The term of an entry is no reference. -/
theorem Kept.reference?_toTerm (k : Kept) : k.toTerm.reference? = none := by
  obtain ⟨ns, name, id, content⟩ := k
  cases content <;> rfl

/-- The term of an entry is no capture either. -/
theorem Kept.isConcrete_toTerm (k : Kept) : k.toTerm.isConcrete = true := by
  obtain ⟨ns, name, id, content⟩ := k
  cases content <;> rfl

namespace Context

variable {ctx ctx' after : Context} {ns : Namespace} {name x : String}

/-! ### The storage of a context -/

theorem lookup_inNamespace (hc : ctx.Coherent) (ns : Namespace) (name : String) :
    ((ctx.inNamespace ns).map fun k ↦ (k.name, k.toTerm)).lookup name =
      (ctx.find? ns name).map Kept.toTerm := by
  -- The names of the namespace are searched one by one, and all that is found is among them.
  have hsearch (names : List String) (hnames : ctx.find? ns name ≠ none → name ∈ names) :
      ((names.filterMap (ctx.find? ns)).map fun k ↦ (k.name, k.toTerm)).lookup name =
        (ctx.find? ns name).map Kept.toTerm := by
    induction names with
    | nil =>
      have hnone : ctx.find? ns name = none := by_contra fun h ↦ nomatch hnames h
      rw [hnone]
      rfl
    | cons n names ih =>
      by_cases hn : name = n
      · subst hn
        cases hk : ctx.find? ns name with
        | none =>
          rw [List.filterMap_cons_none hk, ih fun h ↦ absurd hk h, hk]
        | some k =>
          rw [List.filterMap_cons_some hk, List.map_cons, (Registry.place_of_find? hk).2]
          exact List.lookup_cons_self
      · have hrest := ih fun h ↦ (List.mem_cons.1 (hnames h)).resolve_left hn
        cases hk : ctx.find? ns n with
        | none => rwa [List.filterMap_cons_none hk]
        | some k =>
          rw [List.filterMap_cons_some hk, List.map_cons, (Registry.place_of_find? hk).2,
            List.lookup_cons, beq_false_of_ne hn]
          exact hrest
  refine hsearch _ fun h ↦ hc.mem_names_iff.2 ?_
  by_contra hfree
  exact h (Registry.find?_eq_none.2 (Bool.eq_false_iff.2 hfree))

/-- **The storage of a context** gives a name the term of the entry that it stands for. -/
theorem storage_resolve (hc : ctx.Coherent) (name : String) :
    ctx.storage.resolve name = (ctx.lookup? name).map Kept.toTerm := by
  have hsearch (order : List Namespace) :
      (order.flatMap fun ns ↦ (ctx.inNamespace ns).map fun k ↦ (k.name, k.toTerm)).lookup name =
        (order.findSome? fun ns ↦ ctx.find? ns name).map Kept.toTerm := by
    induction order with
    | nil => rfl
    | cons ns order ih =>
      rw [List.flatMap_cons, List.lookup_append, ih, lookup_inNamespace hc, List.findSome?_cons]
      cases ctx.find? ns name <;> rfl
  exact hsearch _

theorem find?_of_lookup? {k : Kept} (h : ctx.lookup? name = some k) :
    ctx.find? k.ns k.name = some k := by
  obtain ⟨ns, -, hk⟩ := List.exists_of_findSome?_eq_some h
  obtain ⟨rfl, rfl⟩ := Registry.place_of_find? hk
  exact hk

theorem mem_entries_of_find? (hc : ctx.Coherent) {k : Kept} (h : ctx.find? ns name = some k) :
    k ∈ ctx.entries :=
  List.mem_filterMap.2 ⟨(ns, name), hc.mem_order_iff_exists.2 ⟨k, h⟩, h⟩

theorem mem_entries_of_mem_inNamespace (hc : ctx.Coherent) {k : Kept}
    (hk : k ∈ ctx.inNamespace ns) : k ∈ ctx.entries :=
  mem_entries_of_find? hc (find?_of_mem_inNamespace hk).2

/-- No entry occurs twice in a namespace. -/
theorem nodup_inNamespace (hc : ctx.Coherent) (ns : Namespace) : (ctx.inNamespace ns).Nodup := by
  refine (hc.names_nodup ns).filterMap fun n m k hn hm ↦ ?_
  rw [← (Registry.place_of_find? hn).2, ← (Registry.place_of_find? hm).2]

theorem mem_inNamespace_of_find? (hc : ctx.Coherent) {k : Kept} (h : ctx.find? ns name = some k) :
    k ∈ ctx.inNamespace ns :=
  List.mem_filterMap.2 ⟨name, hc.mem_names_iff.2 (contains_eq_true.2 ⟨k, h⟩), h⟩

/-- What is stored is the term of an entry. -/
theorem exists_entry_of_resolve (hc : ctx.Coherent) {u : Term}
    (h : ctx.storage.resolve name = some u) : ∃ k ∈ ctx.entries, k.toTerm = u := by
  rw [storage_resolve hc] at h
  obtain ⟨k, hk, rfl⟩ := Option.map_eq_some_iff.1 h
  exact ⟨k, mem_entries_of_find? hc (find?_of_lookup? hk), rfl⟩

/-! ### Entries of a context that grows -/

theorem Grows.mem_entries {js : List (Namespace × String)} (hgrows : ctx.Grows js after)
    (hc : ctx.Coherent) {k : Kept} (hk : k ∈ ctx.entries) : k ∈ after.entries :=
  mem_entries_of_find? (hgrows.coherent hc) (hgrows.find?_eq (find?_of_mem_entries hk))

/-- The entry that is kept comes last in its namespace. -/
theorem inNamespace_keep {x : Content} (hc : ctx.Coherent)
    (hfree : ctx.contains ns name = false) :
    (ctx.keep ns name x).2.inNamespace ns = ctx.inNamespace ns ++ [(ctx.keep ns name x).1] := by
  have hold : (ctx.names ns).filterMap ((ctx.keep ns name x).2.find? ns) =
      (ctx.names ns).filterMap (ctx.find? ns) := by
    refine List.filterMap_congr fun n hn ↦ ?_
    rw [find?_keep hfree, if_neg]
    rintro ⟨-, rfl⟩
    exact Bool.eq_false_iff.1 hfree (hc.mem_names_iff.1 hn)
  show ((ctx.keep ns name x).2.names ns).filterMap ((ctx.keep ns name x).2.find? ns) = _
  rw [names_keep hfree, if_pos rfl, List.filterMap_append, hold,
    List.filterMap_cons_some (find?_keep_self hfree)]
  rfl

/-! ### New names -/

/-- The names of the entries that are in the second context and not in the first one. -/
def newNames (ctx after : Context) : Set String :=
  {x | ∃ ns, (ns, x) ∈ after.order ∧ (ns, x) ∉ ctx.order}

theorem find?_of_not_new (hc : ctx.Coherent) {js : List (Namespace × String)}
    (hgrows : ctx.Grows js after) (hx : x ∉ newNames ctx after) (ns : Namespace) :
    after.find? ns x = ctx.find? ns x := by
  cases hk : ctx.find? ns x with
  | some k => exact hgrows.find?_eq hk
  | none =>
    by_contra hne
    obtain ⟨k, hk'⟩ := Option.ne_none_iff_exists'.1 hne
    refine hx ⟨ns, (hgrows.coherent hc).mem_order_iff_exists.2 ⟨k, hk'⟩, fun hmem ↦ ?_⟩
    obtain ⟨l, hl⟩ := hc.mem_order_iff_exists.1 hmem
    cases hk.symm.trans hl

theorem lookup?_of_not_new (hc : ctx.Coherent) {js : List (Namespace × String)}
    (hgrows : ctx.Grows js after) (hx : x ∉ newNames ctx after) :
    after.lookup? x = ctx.lookup? x := by
  rw [lookup?, lookup?]
  exact congrArg (List.findSome? · _) (funext fun ns ↦ find?_of_not_new hc hgrows hx ns)

/-- What is new on the way is new in the end. -/
theorem newNames_mono {js : List (Namespace × String)} (hgrows : ctx'.Grows js after) :
    newNames ctx ctx' ⊆ newNames ctx after := by
  rintro x ⟨ns, hx, hnew⟩
  refine ⟨ns, ?_, hnew⟩
  rw [hgrows.order_eq]
  exact List.mem_append_left js hx

/-! ### Names that keep their meaning -/

/-- **A context is steady** over another one if names among the given ones stand for the same terms
in both, its entries mention no others, and its references are acyclic. -/
structure Steady (ctx : Context) (names : Set String) (made : Context) : Prop where
  agrees : ∀ x ∈ names, made.storage.resolve x = ctx.storage.resolve x
  mentions : ∀ k ∈ made.entries, ∀ x ∈ k.toTerm.references, x ∈ names
  acyclic : made.storage.Acyclic

/-- **Growth is steady as long as no new name is mentioned.** -/
theorem Coherent.steady (hc : ctx.Coherent) (hacyclic : ctx.storage.Acyclic)
    {js : List (Namespace × String)} (hgrows : ctx.Grows js ctx') {names : Set String}
    (hold : ∀ x ∈ names, x ∉ newNames ctx ctx')
    (hmentions : ∀ k ∈ ctx'.entries, ∀ x ∈ k.toTerm.references, x ∈ names) :
    Steady ctx names ctx' := by
  have hc' : ctx'.Coherent := hgrows.coherent hc
  have hagrees : ∀ x ∈ names, ctx'.storage.resolve x = ctx.storage.resolve x := by
    intro x hx
    rw [storage_resolve hc', storage_resolve hc, lookup?_of_not_new hc hgrows (hold x hx)]
  have hmentioned {x y : String} (h : Mentions ctx'.storage.resolve x y) : y ∈ names := by
    obtain ⟨u, hu, hy⟩ := h
    obtain ⟨k, hk, rfl⟩ := exists_entry_of_resolve hc' hu
    exact hmentions k hk y hy
  -- A name that leads back to itself is mentioned, and so are all names on the way.
  have hback {x y : String} (h : Relation.TransGen (Mentions ctx'.storage.resolve) x y)
      (hx : x ∈ names) : Relation.TransGen (Mentions ctx.storage.resolve) x y := by
    induction h using Relation.TransGen.head_induction_on with
    | single hstep =>
      obtain ⟨u, hu, hy⟩ := hstep
      exact .single ⟨u, (hagrees _ hx).symm.trans hu, hy⟩
    | head hstep _ ih =>
      have hnext := ih (hmentioned hstep)
      obtain ⟨u, hu, hy⟩ := hstep
      exact .head ⟨u, (hagrees _ hx).symm.trans hu, hy⟩ hnext
  refine ⟨hagrees, hmentions, fun x hx ↦ hacyclic x (hback hx ?_)⟩
  obtain ⟨y, -, hstep⟩ := Relation.TransGen.tail'_iff.1 hx
  exact hmentioned hstep

end Context

end TermRegistry
