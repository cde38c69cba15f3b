import TermRegistry.Context
import TermRegistry.Proofs.Registry

/-!
# How a context grows

While something is built, a context changes in two ways: entries are kept under names that are free,
and the two numbers that names and identities are minted from go up. `Context.Raised` is the second
alone, and `Context.Grows` is any sequence of both, with the places of the entries that were kept.

Two facts about growth carry everything that is proved about construction. What was there stays: the
order is extended at its end, and whatever was found is still found. And growth can be taken back:
forgetting the entries from the last one to the first leaves the context as it was, raised.

`Context.Precedes` says of two places which one was declared first. Invariants about what an entry
leads to are stated by it, because everything there is comes before what is kept next.
-/

namespace TermRegistry

namespace Context

/-- A context with a coherent registry. -/
def Coherent (ctx : Context) : Prop := ctx.registry.Coherent

/-! ### Keeping -/

section

variable {ctx : Context} {ns : Namespace} {name : String} {x : Content}

@[simp] theorem counter_keep : (ctx.keep ns name x).2.counter = ctx.counter := Registry.counter_keep

/-- An entry under a free name comes last in the order of declaration. -/
theorem order_keep (hfree : ctx.contains ns name = false) :
    (ctx.keep ns name x).2.order = ctx.order ++ [(ns, name)] :=
  Registry.order_keep hfree

/-- An entry under a free name comes last among the names of its namespace. -/
theorem names_keep (hfree : ctx.contains ns name = false) (ns' : Namespace) :
    (ctx.keep ns name x).2.names ns' =
      if ns' = ns then ctx.names ns ++ [name] else ctx.names ns' := by
  refine (congrArg Keeper.names (Registry.keeper_keep hfree ns')).trans ?_
  split
  · rw [Keeper.keep_of_free hfree]
    rfl
  · rfl

/-- A name is taken just when an entry is found under it. -/
theorem contains_eq_true :
    ctx.contains ns name = true ↔ ∃ k, ctx.find? ns name = some k := by
  rw [contains, Registry.contains_eq_isSome_find?, Option.isSome_iff_exists]
  rfl

/-- What is kept is found under its name, and everything else as before. -/
theorem find?_keep (hfree : ctx.contains ns name = false) (ns' : Namespace) (n : String) :
    (ctx.keep ns name x).2.find? ns' n =
      if ns' = ns ∧ n = name then some (ctx.keep ns name x).1 else ctx.find? ns' n :=
  Registry.find?_keep hfree ns' n

theorem find?_keep_self (hfree : ctx.contains ns name = false) :
    (ctx.keep ns name x).2.find? ns name = some (ctx.keep ns name x).1 := by
  rw [find?_keep hfree, if_pos ⟨rfl, rfl⟩]

/-- What is there when an object was shared was there before, or is the object. -/
theorem contains_of_share {k : Kept} {ns' : Namespace} {n : String}
    (h : (ctx.share k).contains ns' n = true) :
    ctx.contains ns' n = true ∨ (ns', n) = k.place := by
  -- An object is shared under its own name, unless that is taken.
  cases hfree : ctx.contains k.ns k.name with
  | true =>
    rw [share, Registry.keep_of_taken hfree] at h
    exact .inl h
  | false =>
    obtain ⟨l, hl⟩ := contains_eq_true.1 h
    have hfind : (ctx.share k).find? ns' n = _ := Registry.find?_keep hfree ns' n
    rw [hfind] at hl
    split at hl
    · next hplace => exact .inr (Prod.ext hplace.1 hplace.2)
    · exact .inl (contains_eq_true.2 ⟨l, hl⟩)

/-- A name that is there when another one has been kept was there before, or is this one. -/
theorem contains_of_keep {ns' : Namespace} {n : String}
    (h : (ctx.keep ns name x).2.contains ns' n = true) :
    ctx.contains ns' n = true ∨ (ns', n) = (ns, name) :=
  contains_of_share (k := ⟨ns, name, ⟨ctx.home, ctx.made⟩, x⟩) h

end

/-! ### Raising the numbers -/

/-- The context with other numbers to mint from. -/
def raise (ctx : Context) (counter made : Nat) : Context :=
  { ctx with registry := { ctx.registry with counter }, made }

/-- **A context is raised** to one that differs from it in greater numbers to mint from alone. -/
def Raised (ctx ctx' : Context) : Prop :=
  ∃ counter made, ctx.counter ≤ counter ∧ ctx.made ≤ made ∧ ctx' = ctx.raise counter made

variable {ctx ctx' ctx'' : Context} {ns : Namespace} {name : String}

/-- Forgetting an entry and raising the numbers can be done in either order. -/
theorem forget_raise (c m : Nat) :
    (ctx.raise c m).forget ns name = (ctx.forget ns name).raise c m := by
  show { ctx.raise c m with registry := (ctx.raise c m).registry.forget ns name } =
    { ctx with registry := { ctx.registry.forget ns name with counter := c }, made := m }
  cases h : ctx.registry.contains ns name with
  | true =>
    have h' : (ctx.raise c m).registry.contains ns name = true := h
    rw [Registry.forget, Registry.forget, h, h']
    rfl
  | false =>
    have h' : (ctx.raise c m).registry.contains ns name = false := h
    rw [Registry.forget, Registry.forget, h, h']
    rfl

namespace Raised

theorem refl (ctx : Context) : Raised ctx ctx :=
  ⟨ctx.counter, ctx.made, Nat.le_refl _, Nat.le_refl _, rfl⟩

/-- Raising a context twice raises it. -/
theorem trans (h : Raised ctx ctx') (h' : Raised ctx' ctx'') : Raised ctx ctx'' := by
  obtain ⟨c, m, hc, hm, rfl⟩ := h
  obtain ⟨d, n, hd, hn, rfl⟩ := h'
  exact ⟨d, n, Nat.le_trans hc hd, Nat.le_trans hm hn, rfl⟩

/-- A counter that goes up raises a context. -/
theorem withCounter {counter : Nat} (h : ctx.counter ≤ counter) :
    Raised ctx (ctx.withCounter counter) :=
  ⟨counter, ctx.made, h, Nat.le_refl _, rfl⟩

/-- Minting a name raises a context. -/
theorem mint (ctx : Context) (ns : Namespace) :
    Raised ctx (ctx.withCounter (ctx.nextNumber ns + 1)) :=
  withCounter (Nat.le_succ_of_le (ctx.registry.counter_le_nextNumber ns))

/-- A raised context has no smaller counter. -/
theorem counter_le (h : Raised ctx ctx') : ctx.counter ≤ ctx'.counter := by
  obtain ⟨c, m, hc, -, rfl⟩ := h
  exact hc

/-- Raising leaves the order of declaration as it is. -/
theorem order_eq (h : Raised ctx ctx') : ctx'.order = ctx.order := by
  obtain ⟨c, m, -, -, rfl⟩ := h
  rfl

theorem keeper_eq (h : Raised ctx ctx') (ns : Namespace) :
    ctx'.registry.keeper ns = ctx.registry.keeper ns := by
  obtain ⟨c, m, -, -, rfl⟩ := h
  rfl

/-- **Raising leaves all entries as they are.** -/
theorem find?_eq (h : Raised ctx ctx') (ns : Namespace) (name : String) :
    ctx'.find? ns name = ctx.find? ns name := by
  obtain ⟨c, m, -, -, rfl⟩ := h
  rfl

/-- Raising takes no name. -/
theorem contains_eq (h : Raised ctx ctx') (ns : Namespace) (name : String) :
    ctx'.contains ns name = ctx.contains ns name := by
  rw [Bool.eq_iff_iff, contains_eq_true, contains_eq_true, h.find?_eq]

theorem inNamespace_eq (h : Raised ctx ctx') (ns : Namespace) :
    ctx'.inNamespace ns = ctx.inNamespace ns := by
  obtain ⟨c, m, -, -, rfl⟩ := h
  rfl

theorem factories_eq (h : Raised ctx ctx') : ctx'.factories = ctx.factories := by
  obtain ⟨c, m, -, -, rfl⟩ := h
  rfl

theorem home_eq (h : Raised ctx ctx') : ctx'.home = ctx.home := by
  obtain ⟨c, m, -, -, rfl⟩ := h
  rfl

/-- Coherence does not depend on the numbers. -/
theorem coherent (h : Raised ctx ctx') (hc : ctx.Coherent) : ctx'.Coherent := by
  obtain ⟨c, m, -, -, rfl⟩ := h
  exact ⟨hc.order_nodup, hc.names_eq, hc.mem_names, hc.keys_nodup, hc.suits⟩

/-- A context in which an entry is forgotten is raised by what raised the context before. -/
theorem forget (h : Raised ctx ctx') (ns : Namespace) (name : String) :
    Raised (ctx.forget ns name) (ctx'.forget ns name) := by
  obtain ⟨c, m, hc, hm, rfl⟩ := h
  refine ⟨c, m, ?_, hm, forget_raise c m⟩
  refine Nat.le_trans (Nat.le_of_eq ?_) hc
  show (ctx.registry.forget ns name).counter = ctx.registry.counter
  rw [Registry.forget]
  split <;> rfl

/-- Taking back the same entries keeps one context raised to the other. -/
theorem foldr_forget (h : Raised ctx ctx') (js : List (Namespace × String)) :
    Raised (js.foldr (fun e ctx ↦ ctx.forget e.1 e.2) ctx)
      (js.foldr (fun e ctx ↦ ctx.forget e.1 e.2) ctx') := by
  induction js with
  | nil => exact h
  | cons e js ih => exact ih.forget e.1 e.2

end Raised

/-! ### The order of declaration -/

/-- **One place comes before another one** in the order of declaration. -/
def Precedes (ctx : Context) (p q : Namespace × String) : Prop :=
  ∃ before behind, ctx.order = before ++ q :: behind ∧ p ∈ before

/-- Everything there is comes before what is kept next. -/
theorem precedes_keep {p : Namespace × String} {x : Content}
    (hfree : ctx.contains ns name = false) (hp : p ∈ ctx.order) :
    (ctx.keep ns name x).2.Precedes p (ns, name) :=
  ⟨ctx.order, [], order_keep hfree, hp⟩

namespace Precedes

variable {p q : Namespace × String}

/-- What comes before a place is declared. -/
theorem mem_order (h : ctx.Precedes p q) : p ∈ ctx.order := by
  obtain ⟨before, behind, horder, hp⟩ := h
  rw [horder]
  exact List.mem_append_left _ hp

/-- Raising does not change what comes before what. -/
theorem raised (h : ctx.Precedes p q) (hr : ctx.Raised ctx') : ctx'.Precedes p q := by
  obtain ⟨before, behind, horder, hp⟩ := h
  exact ⟨before, behind, hr.order_eq.trans horder, hp⟩

/-- What comes before a place still does when another entry is kept: that one comes last. -/
theorem keep (h : ctx.Precedes p q) {x : Content} (hfree : ctx.contains ns name = false) :
    (ctx.keep ns name x).2.Precedes p q := by
  obtain ⟨before, behind, horder, hp⟩ := h
  refine ⟨before, behind ++ [(ns, name)], ?_, hp⟩
  rw [order_keep hfree, horder, List.append_assoc, List.cons_append]

/-- No place is declared twice, so what comes before one is what stands in front of it. -/
theorem mem_of_order_eq (h : ctx.Precedes p q) (hc : ctx.Coherent)
    {before behind : List (Namespace × String)} (horder : ctx.order = before ++ q :: behind) :
    p ∈ before := by
  obtain ⟨before', behind', horder', hp⟩ := h
  have hnodup : (before' ++ q :: behind').Nodup := horder' ▸ hc.order_nodup
  have hq : q ∉ before' := fun hq ↦
    (List.nodup_append.1 hnodup).2.2 _ hq _ List.mem_cons_self rfl
  have hq' : q ∉ behind' := (List.nodup_cons.1 (List.nodup_append.1 hnodup).2.1).1
  obtain ⟨heq, -, -⟩ := (List.append_cons_inj_of_notMem hq hq').1 (horder'.symm.trans horder)
  exact heq ▸ hp

/-- What comes before another place has the smaller index. -/
theorem idxOf_lt (h : ctx.Precedes p q) (hc : ctx.Coherent) :
    ctx.order.idxOf p < ctx.order.idxOf q := by
  obtain ⟨before, behind, horder, hp⟩ := h
  have hnodup : (before ++ q :: behind).Nodup := horder ▸ hc.order_nodup
  have hq : q ∉ before := fun hq ↦
    (List.nodup_append.1 hnodup).2.2 _ hq _ List.mem_cons_self rfl
  -- The one is found in the front part, the other only behind it.
  rw [horder, List.idxOf_append_of_mem hp, List.idxOf_append_of_notMem hq]
  have hlt := List.idxOf_lt_length_of_mem hp
  omega

end Precedes

/-! ### Growth -/

/-- **A context grows** into another by keeping entries under free names, at the given places and in
this order, and by minting. -/
inductive Grows (ctx : Context) : List (Namespace × String) → Context → Prop
  | raised {ctx' : Context} (h : Raised ctx ctx') : Grows ctx [] ctx'
  | kept {ctx' ctx'' : Context} {js : List (Namespace × String)} {ns : Namespace}
      {name : String} {content : Content} (h : Grows ctx js ctx')
      (hfree : ctx'.contains ns name = false) (hsuits : content.suits ns = true)
      (hraised : Raised (ctx'.keep ns name content).2 ctx'') : Grows ctx (js ++ [(ns, name)]) ctx''

namespace Grows

variable {js ks : List (Namespace × String)}

theorem refl (ctx : Context) : Grows ctx [] ctx := .raised (.refl ctx)

/-- Growth follows on growth, with the places of both. -/
theorem trans (h : Grows ctx js ctx') (h' : Grows ctx' ks ctx'') : Grows ctx (js ++ ks) ctx'' := by
  -- Raising at the end belongs to the last entry before it, if there is one.
  induction h' with
  | raised hr =>
    rw [List.append_nil]
    cases h with
    | raised h => exact .raised (h.trans hr)
    | kept h hfree hsuits hraised => exact .kept h hfree hsuits (hraised.trans hr)
  | kept _ hfree hsuits hraised ih =>
    rw [← List.append_assoc]
    exact .kept ih hfree hsuits hraised

/-- The counter never goes down. -/
theorem counter_le (h : Grows ctx js ctx') : ctx.counter ≤ ctx'.counter := by
  -- Induction on the entries that were kept: each of them leaves the counter, and then it is
  -- raised.
  induction h with
  | raised h => exact h.counter_le
  | kept _ _ _ hraised ih => exact Nat.le_trans ih (counter_keep ▸ hraised.counter_le)

/-- Growth does not touch the factories. -/
theorem factories_eq (h : Grows ctx js ctx') : ctx'.factories = ctx.factories := by
  induction h with
  | raised h => exact h.factories_eq
  | kept _ _ _ hraised ih => exact hraised.factories_eq.trans ih

theorem home_eq (h : Grows ctx js ctx') : ctx'.home = ctx.home := by
  induction h with
  | raised h => exact h.home_eq
  | kept _ _ _ hraised ih => exact hraised.home_eq.trans ih

/-- The order grows at its end, by the places of the entries that were kept. -/
theorem order_eq (h : Grows ctx js ctx') : ctx'.order = ctx.order ++ js := by
  induction h with
  | raised h => rw [h.order_eq, List.append_nil]
  | kept _ hfree _ hraised ih =>
    rw [hraised.order_eq, ← List.append_assoc, ← ih]
    exact order_keep hfree

/-- What was found is still found. -/
theorem find?_eq (h : Grows ctx js ctx') {k : Kept} (hk : ctx.find? ns name = some k) :
    ctx'.find? ns name = some k := by
  induction h with
  | raised h => rw [h.find?_eq, hk]
  | kept _ _ _ hraised ih =>
    rw [hraised.find?_eq]
    exact Registry.find?_keep_of_find? ih

/-- A name that was taken stays taken. -/
theorem contains (h : Grows ctx js ctx')
    (hname : ctx.contains ns name = true) : ctx'.contains ns name = true := by
  obtain ⟨k, hk⟩ := contains_eq_true.1 hname
  exact contains_eq_true.2 ⟨k, h.find?_eq hk⟩

/-- **Growth keeps a context coherent.** -/
theorem coherent (h : Grows ctx js ctx') (hc : ctx.Coherent) : ctx'.Coherent := by
  induction h with
  | raised h => exact h.coherent hc
  | kept _ _ hsuits hraised ih => exact hraised.coherent (ih.keep hsuits)

/-- **Growth can be taken back**: forgetting the entries that were kept, the last one first, leaves
the context as it was, but for the numbers. -/
theorem undo (h : Grows ctx js ctx') (hc : ctx.Coherent) :
    Raised ctx (js.foldr (fun e ctx ↦ ctx.forget e.1 e.2) ctx') := by
  -- Induction from the last entry to the first: what it is kept on top of is coherent, so keeping
  -- it can be undone by itself.
  induction h with
  | raised h => exact h
  | @kept ctx' ctx'' js ns name content hgrows hfree _ hraised ih =>
    -- Forgetting the last entry undoes keeping it, only its identity stays used up.
    have hback : (ctx'.keep ns name content).2.forget ns name =
        ctx'.raise ctx'.counter (ctx'.made + 1) := by
      let live : Live := ⟨⟨ctx'.home, ctx'.made⟩, content⟩
      have hregistry : (ctx'.registry.keep ns name live).forget ns name = ctx'.registry :=
        (hgrows.coherent hc).forget_keep hfree
      show { ctx' with
        registry := (ctx'.registry.keep ns name live).forget ns name, made := ctx'.made + 1 } = _
      rw [hregistry]
      rfl
    have hraised' : Raised ctx' (ctx''.forget ns name) :=
      Raised.trans ⟨_, _, Nat.le_refl _, Nat.le_succ _, hback⟩ (hraised.forget ns name)
    rw [List.foldr_append, List.foldr_cons, List.foldr_nil]
    exact ih.trans (hraised'.foldr_forget js)

end Grows

end Context

end TermRegistry
