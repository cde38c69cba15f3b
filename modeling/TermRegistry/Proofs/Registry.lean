import Mathlib
import TermRegistry.Binding
import TermRegistry.Registry

/-!
# Coherent registries

An entry is recorded in three places, and nothing in the type of a registry keeps them in step.
`Registry.Coherent` says that they are: the order has no repetition, its part in a namespace is the
list of names of that namespace, these names are the keys of the map, and every object suits the
namespace it is kept in. Keeping an object preserves this, and forgetting what was just kept gives
the very same registry back, so that a run of keeps can be undone from its end.
-/

namespace TermRegistry

/-! ### Objects and their namespaces -/

namespace Content

variable {x : Content} {ns : Namespace}

/-- Arrays hold texts. -/
theorem eq_texts_of_suits (h : x.suits .array = true) : ∃ items, x = .texts items := by
  cases x with
  | texts items => exact ⟨items, rfl⟩
  | _ => cases h

/-- Values hold a text. -/
theorem eq_text_of_suits (h : x.suits .value = true) : ∃ s, x = .text s := by
  cases x with
  | text s => exact ⟨s, rfl⟩
  | _ => cases h

/-- Rule sets hold rules. -/
theorem eq_rules_of_suits (h : x.suits .ruleSet = true) : ∃ s, x = .rules s := by
  cases x with
  | rules s => exact ⟨s, rfl⟩
  | _ => cases h

/-- All other namespaces hold components. -/
theorem eq_component_of_suits (hns : ns ∉ [.ruleSet, .array, .value]) (h : x.suits ns = true) :
    ∃ c, x = .component c := by
  cases x with
  | component c => exact ⟨c, rfl⟩
  | _ =>
    refine absurd ?_ hns
    cases ns with
    | ruleSet | array | value => decide
    | _ => cases h

end Content

/-! ### One namespace -/

namespace Keeper

variable {k : Keeper} {name : String} {live : Live}

/-- The names that are taken are the keys of the map. -/
theorem contains_eq_true : k.contains name = true ↔ name ∈ k.objects.map Prod.fst :=
  lookup_isSome_iff_mem

theorem contains_eq_false : k.contains name = false ↔ name ∉ k.objects.map Prod.fst := by
  rw [← contains_eq_true, Bool.not_eq_true]

theorem keep_of_free (h : k.contains name = false) :
    k.keep name live = ⟨(name, live) :: k.objects, k.names ++ [name]⟩ := by
  rw [keep, h]
  rfl

/-- What is kept under a free name is found under it, and all else as before. -/
theorem get?_keep (h : k.contains name = false) (n : String) :
    (k.keep name live).get? n = if n = name then some live else k.get? n := by
  rw [keep_of_free h, get?, List.lookup_cons]
  by_cases hn : n = name
  · rw [if_pos hn, hn, beq_self_eq_true]
  · rw [if_neg hn, beq_eq_false_iff_ne.2 hn]
    rfl

/-- Forgetting undoes keeping under a free name. -/
theorem forget_keep (h : k.contains name = false) (hnames : name ∉ k.names) :
    (k.keep name live).forget name = k := by
  have hkept : (k.keep name live).contains name = true := by
    rw [contains, get?_keep h, if_pos rfl]
    rfl
  have hobjects : k.objects.filter (·.1 != name) = k.objects :=
    List.filter_eq_self.2 fun o ho ↦ bne_iff_ne.2 fun he ↦
      contains_eq_false.1 h (List.mem_map.2 ⟨o, ho, he⟩)
  have hrest : k.names.filter (· != name) = k.names :=
    List.filter_eq_self.2 fun n hn ↦ bne_iff_ne.2 fun he ↦ hnames (he ▸ hn)
  rw [forget, hkept, if_pos rfl, keep_of_free h]
  simp only [List.filter_cons, List.filter_append, hobjects, hrest, bne_self_eq_false,
    Bool.false_eq_true, if_false, List.filter_nil, List.append_nil]

/-- What was forgotten is not there, and everything else is as before. -/
theorem get?_forget (k : Keeper) (name n : String) :
    (k.forget name).get? n = if n = name then none else k.get? n := by
  -- The map is searched from its front, and what is filtered out would have been found there.
  have hfilter : ∀ os : List (String × Live),
      (os.filter (·.1 != name)).lookup n = if n = name then none else os.lookup n := by
    intro os
    induction os with
    | nil => rw [List.filter_nil, List.lookup_nil, ite_self]
    | cons o os ih =>
      rw [List.filter_cons, List.lookup_cons]
      by_cases ho : o.1 = name
      · rw [if_neg (by rw [ho, bne_self_eq_false]; exact Bool.false_ne_true), ih]
        by_cases hn : n = name
        · rw [if_pos hn, if_pos hn]
        · rw [if_neg hn, if_neg hn, beq_eq_false_iff_ne.2 fun he ↦ hn (he.trans ho)]
      · rw [if_pos (bne_iff_ne.2 ho), List.lookup_cons, ih]
        by_cases hn : n = name
        · rw [if_pos hn, if_pos hn, beq_eq_false_iff_ne.2 fun he ↦ ho (he.symm.trans hn)]
        · rw [if_neg hn, if_neg hn]
  rw [forget]
  split
  · exact hfilter k.objects
  · next h =>
    by_cases hn : n = name
    · rw [if_pos hn, hn]
      rw [contains, Option.isSome_iff_ne_none, not_not] at h
      exact h
    · rw [if_neg hn]

end Keeper

namespace Registry

variable {r : Registry} {ns : Namespace} {name : String} {live : Live}

/-! ### Keepers -/

/-- Only the keeper of one namespace is replaced. -/
theorem keeper_update (r : Registry) (ns : Namespace) (k : Keeper) (ns' : Namespace) :
    (r.update ns k).keeper ns' = if ns' = ns then k else r.keeper ns' := by
  rw [keeper, update, Fin.getElem_fin, Vector.getElem_set]
  by_cases h : ns' = ns
  · rw [if_pos h, if_pos (congrArg _ (Namespace.index_inj.2 h.symm))]
  · rw [if_neg h, if_neg fun hi ↦ h (Namespace.index_inj.1 (Fin.ext hi.symm))]
    rfl

/-- A registry is told by its keepers, its order and its counter. -/
theorem ext_keeper {r s : Registry} (hk : ∀ ns, r.keeper ns = s.keeper ns) (ho : r.order = s.order)
    (hc : r.counter = s.counter) : r = s := by
  have hkeepers : r.keepers = s.keepers := by
    refine Vector.ext fun i hi ↦ ?_
    obtain ⟨ns, -, hns⟩ := Namespace.exists_index_eq ⟨i, hi⟩
    have hkeeper := hk ns
    simp only [keeper, hns] at hkeeper
    exact hkeeper
  cases r
  cases s
  cases hkeepers
  cases ho
  cases hc
  rfl

/-- A name is taken just when something is found under it. -/
theorem contains_eq_isSome_find? (r : Registry) (ns : Namespace) (name : String) :
    r.contains ns name = (r.find? ns name).isSome := by
  rw [find?, Option.isSome_map]
  rfl

theorem find?_eq_none : r.find? ns name = none ↔ r.contains ns name = false := by
  rw [contains_eq_isSome_find?, ← Option.not_isSome_iff_eq_none, Bool.not_eq_true]

/-- What is found is kept where it was looked for. -/
theorem place_of_find? {k : Kept} (h : r.find? ns name = some k) : k.ns = ns ∧ k.name = name := by
  obtain ⟨live, -, rfl⟩ := Option.map_eq_some_iff.1 h
  exact ⟨rfl, rfl⟩

/-! ### Keeping -/

/-- Nothing is kept under a name that is taken. -/
theorem keep_of_taken (h : r.contains ns name = true) : r.keep ns name live = r := by
  rw [keep, if_pos h]

/-- Keeping changes the keeper of one namespace. -/
theorem keeper_keep (h : r.contains ns name = false) (ns' : Namespace) :
    (r.keep ns name live).keeper ns' =
      if ns' = ns then (r.keeper ns).keep name live else r.keeper ns' := by
  rw [keep, h, if_neg Bool.false_ne_true]
  exact keeper_update r ns _ ns'

/-- What is kept comes last in the order. -/
theorem order_keep (h : r.contains ns name = false) :
    (r.keep ns name live).order = r.order ++ [(ns, name)] := by
  rw [keep, h]
  rfl

@[simp] theorem counter_keep : (r.keep ns name live).counter = r.counter := by
  rw [keep]
  split <;> rfl

/-- What is kept is found under its name, and everything else as before. -/
theorem find?_keep (h : r.contains ns name = false) (ns' : Namespace) (n : String) :
    (r.keep ns name live).find? ns' n =
      if ns' = ns ∧ n = name then some ⟨ns, name, live.id, live.content⟩ else r.find? ns' n := by
  rw [find?, keeper_keep h]
  by_cases hns : ns' = ns
  · subst hns
    rw [if_pos rfl, Keeper.get?_keep h]
    by_cases hn : n = name
    · rw [if_pos hn, if_pos ⟨rfl, hn⟩, hn]
      rfl
    · rw [if_neg hn, if_neg fun hand ↦ hn hand.2]
      rfl
  · rw [if_neg hns, if_neg fun hand ↦ hns hand.1]
    rfl

/-- What is found is still found after something was kept. -/
theorem find?_keep_of_find? {k : Kept} {n : String} {ns' : Namespace}
    (h : r.find? ns' n = some k) : (r.keep ns name live).find? ns' n = some k := by
  cases hfree : r.contains ns name with
  | true => rwa [keep_of_taken hfree]
  | false =>
    rw [find?_keep hfree, if_neg]
    · exact h
    · rintro ⟨rfl, rfl⟩
      rw [find?_eq_none.2 hfree] at h
      cases h

/-! ### Forgetting -/

/-- Forgetting changes the keeper of one namespace. -/
theorem keeper_forget (r : Registry) (ns : Namespace) (name : String) (ns' : Namespace) :
    (r.forget ns name).keeper ns' =
      if ns' = ns then (r.keeper ns).forget name else r.keeper ns' := by
  rw [forget]
  split
  · exact keeper_update r ns _ ns'
  · next h =>
    have hkeeper : (r.keeper ns).forget name = r.keeper ns := if_neg h
    rw [hkeeper]
    split
    · next hns => rw [hns]
    · rfl

/-- What was forgotten is not found, and everything else is as before. -/
theorem find?_forget (r : Registry) (ns : Namespace) (name : String) (ns' : Namespace)
    (n : String) :
    (r.forget ns name).find? ns' n =
      if ns' = ns ∧ n = name then none else r.find? ns' n := by
  rw [find?, keeper_forget]
  by_cases hns : ns' = ns
  · subst hns
    rw [if_pos rfl, Keeper.get?_forget]
    by_cases hn : n = name
    · rw [if_pos hn, if_pos ⟨rfl, hn⟩]
      rfl
    · rw [if_neg hn, if_neg fun hand ↦ hn hand.2]
      rfl
  · rw [if_neg hns, if_neg fun hand ↦ hns hand.1]
    rfl

/-! ### Minting -/

/-- The search goes upwards. -/
theorem le_firstFree (taken : String → Bool) (tries n : Nat) : n ≤ firstFree taken tries n := by
  induction tries generalizing n with
  | zero => exact Nat.le_refl n
  | succ tries ih =>
    rw [firstFree]
    split
    · exact Nat.le_trans (Nat.le_succ n) (ih (n + 1))
    · exact Nat.le_refl n

/-- Numbers are minted from the counter on. -/
theorem counter_le_nextNumber (r : Registry) (ns : Namespace) : r.counter ≤ r.nextNumber ns :=
  le_firstFree _ _ _

/-! ### Coherence -/

/-- **Coherent registries**: the three records of the entries are in step, and every object suits
its namespace. -/
structure Coherent (r : Registry) : Prop where
  order_nodup : r.order.Nodup
  /-- The part of the order in a namespace is the list of its names. -/
  names_eq : ∀ ns, ((r.order.filter fun e ↦ e.1 = ns).map Prod.snd) = (r.keeper ns).names
  /-- The names of a namespace are the keys of its map. -/
  mem_names : ∀ ns name, name ∈ (r.keeper ns).names ↔ name ∈ (r.keeper ns).objects.map Prod.fst
  /-- No key occurs twice in a map. -/
  keys_nodup : ∀ ns, ((r.keeper ns).objects.map Prod.fst).Nodup
  suits : ∀ ns, ∀ o ∈ (r.keeper ns).objects, o.2.content.suits ns = true

/-- The empty registry is coherent. -/
theorem coherent_empty : Coherent {} := by
  have hkeeper : ∀ ns, ({} : Registry).keeper ns = {} := fun ns ↦ by
    rw [keeper, Fin.getElem_fin, Vector.getElem_replicate]
  refine ⟨List.nodup_nil, fun ns ↦ ?_, fun ns name ↦ ?_, fun ns ↦ ?_, fun ns o ho ↦ ?_⟩
  · rw [hkeeper]
    rfl
  · rw [hkeeper]
    exact Iff.rfl
  · rw [hkeeper]
    exact List.nodup_nil
  · rw [hkeeper] at ho
    cases ho

namespace Coherent

variable (h : r.Coherent)
include h

/-- The names of a namespace are the names that are taken in it. -/
theorem mem_names_iff : name ∈ (r.keeper ns).names ↔ r.contains ns name = true := by
  rw [h.mem_names, contains, Keeper.contains_eq_true]

/-- The entries of the order are the places that are taken. -/
theorem mem_order_iff : (ns, name) ∈ r.order ↔ r.contains ns name = true := by
  rw [← h.mem_names_iff, ← h.names_eq, List.mem_map]
  refine ⟨fun he ↦ ⟨(ns, name), List.mem_filter.2 ⟨he, decide_eq_true rfl⟩, rfl⟩, ?_⟩
  rintro ⟨⟨ns', name'⟩, he, rfl⟩
  obtain ⟨he', hns⟩ := List.mem_filter.1 he
  obtain rfl := of_decide_eq_true hns
  exact he'

/-- The order has the places at which something is found. -/
theorem mem_order_iff_exists : (ns, name) ∈ r.order ↔ ∃ k, r.find? ns name = some k := by
  rw [h.mem_order_iff, contains_eq_isSome_find?, Option.isSome_iff_exists]

/-- A name is free just when the order does not have its place. -/
theorem contains_eq_false : r.contains ns name = false ↔ (ns, name) ∉ r.order := by
  rw [h.mem_order_iff, Bool.not_eq_true]

/-- No name occurs twice in a namespace. -/
theorem names_nodup (ns : Namespace) : (r.keeper ns).names.Nodup := by
  rw [← h.names_eq]
  refine (h.order_nodup.filter _).map_on fun d hd e he hde ↦ Prod.ext ?_ hde
  rw [of_decide_eq_true (List.mem_filter.1 hd).2, of_decide_eq_true (List.mem_filter.1 he).2]

/-- A namespace has as many names as its map has keys. -/
theorem length_names (ns : Namespace) : (r.keeper ns).names.length = (r.keeper ns).size := by
  have hperm : (r.keeper ns).names.Perm ((r.keeper ns).objects.map Prod.fst) :=
    (List.perm_ext_iff_of_nodup (h.names_nodup ns) (h.keys_nodup ns)).2 fun n ↦ h.mem_names ns n
  rw [hperm.length_eq, List.length_map]
  rfl

/-- **There are as many entries in the order as in the ten maps together.** -/
theorem length_order :
    r.order.length = (Namespace.all.map fun ns ↦ (r.keeper ns).size).sum := by
  have hparts : ∀ l : List (Namespace × String),
      l.length = (Namespace.all.map fun ns ↦ (l.filter fun e ↦ e.1 = ns).length).sum := by
    intro l
    induction l with
    | nil => rfl
    | cons e l ih =>
      obtain ⟨ns, name⟩ := e
      rw [List.length_cons, ih]
      -- The entry is in the part of one of the ten namespaces, and adds one there.
      cases ns <;> simp [Namespace.all] <;> omega
  rw [hparts]
  refine congrArg _ (List.map_congr_left fun ns _ ↦ ?_)
  rw [← h.length_names, ← h.names_eq, List.length_map]

/-- **Keeping preserves coherence.** -/
theorem keep (hs : live.content.suits ns = true) : (r.keep ns name live).Coherent := by
  cases hfree : r.contains ns name with
  | true => rwa [keep_of_taken hfree]
  | false =>
    have hnew : (ns, name) ∉ r.order := h.contains_eq_false.1 hfree
    have hkey : name ∉ (r.keeper ns).objects.map Prod.fst := Keeper.contains_eq_false.1 hfree
    refine ⟨?_, fun ns' ↦ ?_, fun ns' n ↦ ?_, fun ns' ↦ ?_, fun ns' ↦ ?_⟩
    · rw [order_keep hfree, ← List.concat_eq_append]
      exact h.order_nodup.concat hnew
    -- Only the keeper of the namespace changes, by the name and the object in front.
    all_goals
      rw [keeper_keep hfree]
      by_cases hns : ns' = ns
    · subst hns
      rw [if_pos rfl, order_keep hfree, List.filter_append, List.map_append, h.names_eq,
        Keeper.keep_of_free hfree]
      simp
    · rw [if_neg hns, order_keep hfree, List.filter_append, List.map_append, h.names_eq]
      simp [Ne.symm hns]
    · subst hns
      rw [if_pos rfl, Keeper.keep_of_free hfree]
      rw [List.mem_append, List.mem_singleton, h.mem_names, List.map_cons, List.mem_cons]
      exact or_comm
    · rw [if_neg hns]
      exact h.mem_names ns' n
    · subst hns
      rw [if_pos rfl, Keeper.keep_of_free hfree]
      exact List.nodup_cons.2 ⟨hkey, h.keys_nodup ns'⟩
    · rw [if_neg hns]
      exact h.keys_nodup ns'
    · subst hns
      rw [if_pos rfl, Keeper.keep_of_free hfree]
      intro o ho
      rcases List.mem_cons.1 ho with rfl | ho
      · exact hs
      · exact h.suits ns' o ho
    · rw [if_neg hns]
      exact h.suits ns'

/-- **Forgetting undoes keeping**, under a name that was free. -/
theorem forget_keep (hfree : r.contains ns name = false) :
    (r.keep ns name live).forget ns name = r := by
  have hnew : (ns, name) ∉ r.order := h.contains_eq_false.1 hfree
  have hname : name ∉ (r.keeper ns).names := by
    rwa [h.mem_names_iff, Bool.not_eq_true]
  have hkept : (r.keep ns name live).contains ns name = true := by
    rw [contains_eq_isSome_find?, find?_keep hfree, if_pos ⟨rfl, rfl⟩]
    rfl
  rw [forget, hkept, if_pos rfl]
  -- The keepers, the order and the counter are as they were before.
  refine ext_keeper (fun ns' ↦ ?_) ?_ counter_keep
  · refine (keeper_update _ ns _ ns').trans ?_
    rw [keeper_keep hfree, keeper_keep hfree, if_pos rfl]
    by_cases hns : ns' = ns
    · rw [if_pos hns, hns, Keeper.forget_keep hfree hname]
    · rw [if_neg hns, if_neg hns]
  · show ((r.keep ns name live).order.filter (· != (ns, name))) = r.order
    rw [order_keep hfree, List.filter_append, List.filter_eq_self.2]
    · simp
    · rintro e he
      exact bne_iff_ne.2 fun heq ↦ hnew (heq ▸ he)

end Coherent

end Registry

end TermRegistry
