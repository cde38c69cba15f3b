import TermRegistry.Proofs.Families
import TermRegistry.Proofs.Growth

/-!
# Contexts that look alike

Two contexts look alike if nothing but the objects themselves tells them apart: they have the same
factories, the same names in the same order and the same counter, and under each name objects that
show the same term. Which live object it is, how the parameters of a component were written and what
they resolved to may differ, and so may the homes.

Whatever a construction asks a context is answered alike by contexts that look alike: most answers
are equal, and those that are entries are entries under the same name that look alike themselves.
Reading a value asks for the names that it refers to and for no others, so for that it is enough
that the contexts look alike under these (`Context.AlikeUnder`).
-/

namespace TermRegistry

/-! ### Results -/

/-- Two computations **agree** if they fail with the same error or their values are related. -/
inductive Agree {ε α β : Type} (R : α → β → Prop) : Except ε α → Except ε β → Prop
  | ok {a : α} {b : β} (h : R a b) : Agree R (.ok a) (.ok b)
  | error (e : ε) : Agree R (.error e) (.error e)

namespace Agree

variable {ε α β γ δ : Type} {R R' : α → β → Prop} {S : γ → δ → Prop}

/-- Equal computations agree in equal values. -/
theorem of_eq {x y : Except ε α} (h : x = y) : Agree Eq x y := by
  subst h
  cases x with
  | error e => exact .error e
  | ok a => exact .ok rfl

/-- Agreement may be in less. -/
theorem mono {x : Except ε α} {y : Except ε β} (h : Agree R x y) (hR : ∀ a b, R a b → R' a b) :
    Agree R' x y := by
  cases h with
  | ok h => exact .ok (hR _ _ h)
  | error e => exact .error e

/-- **Computations that agree go on in agreement**, if their continuations do from related
values. -/
theorem bind {x : Except ε α} {y : Except ε β} {f : α → Except ε γ} {g : β → Except ε δ}
    (h : Agree R x y) (hf : ∀ a b, R a b → Agree S (f a) (g b)) :
    Agree S (x.bind f) (y.bind g) := by
  cases h with
  | ok h => exact hf _ _ h
  | error e => exact .error e

end Agree

/-! ### Entries -/

/-- **Objects that look alike** are the same, or components that show the same term. -/
inductive Content.Alike : Content → Content → Prop
  | same (x : Content) : Alike x x
  | component {c d : Component} (h : c.toTerm = d.toTerm) : Alike (.component c) (.component d)

/-- Objects that look alike show the same term. -/
theorem Content.Alike.toTerm_eq {x y : Content} (h : x.Alike y) : x.toTerm = y.toTerm := by
  cases h with
  | same => rfl
  | component h => exact h

/-- **Resolved values that look alike** are the same, or links to the same place. -/
inductive Resolved.Alike : Resolved → Resolved → Prop
  | same (r : Resolved) : Alike r r
  | entry {l m : Link} (hns : l.ns = m.ns) (hname : l.name = m.name) : Alike (.entry l) (.entry m)

/-- **Entries that look alike** are in the same place and have contents that look alike. -/
structure Kept.Alike (k l : Kept) : Prop where
  ns_eq : k.ns = l.ns
  name_eq : k.name = l.name
  content : k.content.Alike l.content

namespace Kept.Alike

variable {k l : Kept}

theorem toTerm_eq (h : k.Alike l) : k.toTerm = l.toTerm := h.content.toTerm_eq

/-- Entries that look alike are declared by the same statement. -/
theorem statement_eq (h : k.Alike l) : k.statement = l.statement := by
  rw [statement, statement, h.ns_eq, h.name_eq, h.toTerm_eq]

/-- A link to an entry goes to the place of the other one, too. -/
theorem link (h : k.Alike l) : Resolved.Alike (.entry k.link) (.entry l.link) :=
  .entry h.ns_eq h.name_eq

/-- What a parameter gets from entries that look alike looks alike: a link, or the same data. -/
theorem resolved (h : k.Alike l) : k.resolved.Alike l.resolved := by
  obtain ⟨ns, name, i, x⟩ := k
  obtain ⟨ns', name', j, y⟩ := l
  obtain ⟨hns, hname, hcontent⟩ := h
  -- A component is linked to whatever it is. The other objects are the same on both sides.
  cases hcontent with
  | component => exact .entry hns hname
  | same x =>
    cases x with
    | component | rules => exact .entry hns hname
    | texts | text => exact .same _

end Kept.Alike

/-- Lists that are related place by place are mapped to the same, if related values are. -/
theorem map_eq_of_forall₂ {α β : Type} {R : α → α → Prop} {f : α → β} {l l' : List α}
    (h : List.Forall₂ R l l') (hf : ∀ a b, R a b → f a = f b) : l.map f = l'.map f := by
  induction h with
  | nil => rfl
  | cons h _ ih => rw [List.map_cons, List.map_cons, hf _ _ h, ih]

/-! ### Contexts -/

namespace Context

/-- Shapes that look alike are the same but for what they settle on. -/
inductive Shape.Alike : Shape → Shape → Prop
  | same (s : Shape) : Alike s s
  | settled {r r' : Resolved} (h : r.Alike r') : Alike (.settled r) (.settled r')

/-- **Contexts that look alike under some names.** -/
structure AlikeUnder (names : Set String) (ctx ctx' : Context) : Prop where
  factories_eq : ctx.factories = ctx'.factories
  found : ∀ ns, ∀ name ∈ names, Option.Rel Kept.Alike (ctx.find? ns name) (ctx'.find? ns name)

namespace AlikeUnder

variable {ctx ctx' : Context} {names : Set String} {name : String} {t : Term}

/-! ### What is asked about names -/

/-- What is looked up is found in both contexts or in neither. -/
theorem found_cases (h : AlikeUnder names ctx ctx') (ns : Namespace) (hname : name ∈ names) :
    (ctx.find? ns name = none ∧ ctx'.find? ns name = none) ∨
      ∃ k l, ctx.find? ns name = some k ∧ ctx'.find? ns name = some l ∧ k.Alike l := by
  have hfound := h.found ns name hname
  generalize ctx.find? ns name = x at hfound ⊢
  generalize ctx'.find? ns name = y at hfound ⊢
  cases hfound with
  | none => exact .inl ⟨rfl, rfl⟩
  | some hk => exact .inr ⟨_, _, rfl, rfl, hk⟩

/-- A name is taken in both contexts or in neither. -/
theorem contains_eq (h : AlikeUnder names ctx ctx') (ns : Namespace) (hname : name ∈ names) :
    ctx.contains ns name = ctx'.contains ns name := by
  show ctx.registry.contains ns name = ctx'.registry.contains ns name
  rw [Registry.contains_eq_isSome_find?, Registry.contains_eq_isSome_find?]
  show (ctx.find? ns name).isSome = (ctx'.find? ns name).isSome
  obtain ⟨hk, hl⟩ | ⟨k, l, hk, hl, -⟩ := h.found_cases ns hname
  · rw [hk, hl]
  · rw [hk, hl]
    rfl

/-- A bare name is looked up alike. -/
theorem lookup? (h : AlikeUnder names ctx ctx') (hname : name ∈ names) :
    Option.Rel Kept.Alike (ctx.lookup? name) (ctx'.lookup? name) := by
  rw [Context.lookup?, Context.lookup?]
  induction Namespace.resolutionOrder with
  | nil => exact .none
  | cons ns nss ih =>
    rw [List.findSome?_cons, List.findSome?_cons]
    -- Namespace by namespace, the search goes on in both contexts or ends in both.
    obtain ⟨hk, hl⟩ | ⟨k, l, hk, hl, hkl⟩ := h.found_cases ns hname
    · rw [hk, hl]
      exact ih
    · rw [hk, hl]
      exact .some hkl

/-- A reference in a namespace is answered alike, with the same error if there is no such entry. -/
theorem referred (h : AlikeUnder names ctx ctx') (ns : Namespace) (hname : name ∈ names) :
    Agree Kept.Alike (ctx.referred ns name) (ctx'.referred ns name) := by
  rw [Context.referred, Context.referred]
  obtain ⟨hk, hl⟩ | ⟨k, l, hk, hl, hkl⟩ := h.found_cases ns hname
  · rw [hk, hl]
    exact .error _
  · rw [hk, hl]
    exact .ok hkl

/-! ### Reading values -/

/-- The object that is read under a name is the same, unless it is a component. -/
theorem content_cases (h : AlikeUnder names ctx ctx') (ns : Namespace) (hname : name ∈ names) :
    (ctx.find? ns name).map Kept.content = (ctx'.find? ns name).map Kept.content ∨
      ∃ c d, (ctx.find? ns name).map Kept.content = some (.component c) ∧
        (ctx'.find? ns name).map Kept.content = some (.component d) := by
  obtain ⟨hk, hl⟩ | ⟨k, l, hk, hl, hkl⟩ := h.found_cases ns hname
  · rw [hk, hl]
    exact .inl rfl
  · rw [hk, hl, Option.map_some, Option.map_some]
    obtain ⟨-, -, hcontent⟩ := hkl
    generalize k.content = x at hcontent ⊢
    generalize l.content = y at hcontent ⊢
    cases hcontent with
    | same => exact .inl rfl
    | component => exact .inr ⟨_, _, rfl, rfl⟩

section

variable (h : AlikeUnder names ctx ctx') (ht : ∀ x ∈ t.references, x ∈ names)
include h ht

/-- A text is read the same. -/
theorem textOf_eq : ctx.textOf t = ctx'.textOf t := by
  cases t with
  | reference name =>
    rw [textOf, textOf]
    obtain heq | ⟨c, d, hc, hd⟩ := h.content_cases .value (ht name (Term.mem_references_self name))
    · rw [heq]
    · rw [hc, hd]
  | _ => rfl

/-- So are the texts of an array. -/
theorem textsOf_eq : ctx.textsOf t = ctx'.textsOf t := by
  cases t with
  | reference name =>
    rw [textsOf, textsOf]
    obtain heq | ⟨c, d, hc, hd⟩ := h.content_cases .array (ht name (Term.mem_references_self name))
    · rw [heq]
    · rw [hc, hd]
  | _ => rfl

/-- The family of a composition only depends on which names are taken. -/
theorem inferFamily_eq : ctx.inferFamily t = ctx'.inferFamily t :=
  inferFamily_congr h.factories_eq fun name hname ns _ ↦
    h.contains_eq ns (ht name (t.operands_subset_references hname))

/-- What a value of unknown kind settles on looks alike. -/
theorem shapeOf : Agree Shape.Alike (ctx.shapeOf t) (ctx'.shapeOf t) := by
  have hself : ∀ x : Except Error Shape, Agree Shape.Alike x x := fun x ↦
    (Agree.of_eq rfl).mono fun s _ hs ↦ hs ▸ .same s
  -- Only a reference asks for an entry, and only a call for a family.
  cases t with
  | reference name =>
    rw [Context.shapeOf, Context.shapeOf]
    have hfound := h.lookup? (ht name (Term.mem_references_self name))
    generalize ctx.lookup? name = x at hfound ⊢
    generalize ctx'.lookup? name = y at hfound ⊢
    cases hfound with
    | none => exact .error _
    | some hk => exact .ok (.settled hk.resolved)
  | call name parameters internal =>
    rw [Context.shapeOf, Context.shapeOf, h.inferFamily_eq ht]
    exact hself _
  | _ => exact hself _

/-- A composition is accepted in both contexts or in neither, with the same error. -/
theorem checkFamily_eq (ns : Namespace) : ctx.checkFamily ns t = ctx'.checkFamily ns t := by
  rw [checkFamily, checkFamily, h.inferFamily_eq ht]

end

end AlikeUnder

/-- **Contexts that look alike.** -/
structure Alike (ctx ctx' : Context) : Prop where
  factories_eq : ctx.factories = ctx'.factories
  counter_eq : ctx.counter = ctx'.counter
  order_eq : ctx.order = ctx'.order
  names_eq : ∀ ns, ctx.names ns = ctx'.names ns
  found : ∀ ns name, Option.Rel Kept.Alike (ctx.find? ns name) (ctx'.find? ns name)

namespace Alike

variable {ctx ctx' : Context}

/-- They look alike under all names. -/
theorem under (h : Alike ctx ctx') : AlikeUnder Set.univ ctx ctx' :=
  ⟨h.factories_eq, fun ns name _ ↦ h.found ns name⟩

/-! ### What is asked about entries -/

/-- A name is taken in both contexts or in neither. -/
theorem contains_eq (h : Alike ctx ctx') (ns : Namespace) (name : String) :
    ctx.contains ns name = ctx'.contains ns name :=
  h.under.contains_eq ns trivial

/-- The entries of a namespace look alike, place by place. -/
theorem inNamespace (h : Alike ctx ctx') (ns : Namespace) :
    List.Forall₂ Kept.Alike (ctx.inNamespace ns) (ctx'.inNamespace ns) := by
  have hnames : (ctx.registry.keeper ns).names = (ctx'.registry.keeper ns).names := h.names_eq ns
  rw [Context.inNamespace, Context.inNamespace, Registry.inNamespace, Registry.inNamespace, hnames]
  refine List.rel_filterMap (R := Eq) ?_ (List.forall₂_refl _)
  rintro name _ rfl
  exact h.found ns name

/-- All entries look alike, in the order of declaration. -/
theorem entries (h : Alike ctx ctx') : List.Forall₂ Kept.Alike ctx.entries ctx'.entries := by
  have horder : ctx.registry.order = ctx'.registry.order := h.order_eq
  rw [Context.entries, Context.entries, Registry.entries, Registry.entries, horder]
  refine List.rel_filterMap (R := Eq) ?_ (List.forall₂_refl _)
  rintro e _ rfl
  exact h.found e.1 e.2

/-- What looks alike is written alike. -/
theorem statements_eq (h : Alike ctx ctx') :
    ctx.entries.map Kept.statement = ctx'.entries.map Kept.statement :=
  map_eq_of_forall₂ h.entries fun _ _ hk ↦ hk.statement_eq

/-- **Matching works over the same storage**: it has the names and the terms, which look alike. -/
theorem storage_eq (h : Alike ctx ctx') : ctx.storage = ctx'.storage := by
  rw [storage, storage]
  refine congrArg _ (congrArg (fun f ↦ Namespace.resolutionOrder.flatMap f) (funext fun ns ↦ ?_))
  exact map_eq_of_forall₂ (h.inNamespace ns) fun _ _ hk ↦ Prod.ext hk.name_eq hk.toTerm_eq

theorem referred (h : Alike ctx ctx') (ns : Namespace) (name : String) :
    Agree Kept.Alike (ctx.referred ns name) (ctx'.referred ns name) :=
  h.under.referred ns trivial

/-! ### Matching -/

/-- The same entries are matched, up to what tells them apart. -/
theorem matched (s : Storage) (pattern : Term) {ks ls : List Kept}
    (h : List.Forall₂ Kept.Alike ks ls) :
    Agree (List.Forall₂ Kept.Alike) (matched s pattern ks) (matched s pattern ls) := by
  induction h with
  | nil => exact .ok .nil
  | cons hk _ ih =>
    -- The first entries show the same term, so the outcome of matching it is the same.
    refine (Agree.of_eq (congrArg (pattern.matching s) hk.toTerm_eq)).bind ?_
    rintro m _ rfl
    refine ih.bind fun ks ls hrest ↦ ?_
    cases m with
    | none => exact .ok hrest
    | some _ => exact .ok (.cons hk hrest)

/-- **A definition matches the same entry in contexts that look alike**, or no entry in either, or
it is as ambiguous in one as in the other. -/
theorem singleMatch (h : Alike ctx ctx') (ns : Namespace) (pattern : Term) :
    Agree (Option.Rel Kept.Alike) (ctx.singleMatch ns pattern) (ctx'.singleMatch ns pattern) := by
  rw [Context.singleMatch, Context.singleMatch, h.storage_eq]
  refine (matched ctx'.storage pattern (h.inNamespace ns)).bind fun ks ls hfound ↦ ?_
  -- The entries that match the pattern in turn are picked by their terms, so they correspond.
  have hexact : List.Forall₂ Kept.Alike (ks.filter fun k ↦ k.toTerm.matches ctx'.storage pattern)
      (ls.filter fun k ↦ k.toTerm.matches ctx'.storage pattern) := by
    refine List.rel_filter (fun k l hk ↦ ?_) hfound
    show k.toTerm.matches _ _ = true ↔ l.toTerm.matches _ _ = true
    rw [hk.toTerm_eq]
  have hnames : ks.map (·.name) = ls.map (·.name) :=
    map_eq_of_forall₂ hfound fun _ _ hk ↦ hk.name_eq
  cases hfound with
  | nil => exact .ok .none
  | cons hk hrest =>
    cases hrest with
    | nil => exact .ok (.some hk)
    | cons hk' hrest' =>
      -- Several entries match, so the ones that match in turn decide.
      simp only [hnames]
      generalize List.filter _ _ = found at hexact ⊢
      generalize List.filter _ _ = found' at hexact ⊢
      cases hexact with
      | nil => exact .error _
      | cons hk hrest =>
        cases hrest with
        | nil => exact .ok (.some hk)
        | cons _ _ => exact .error _

/-! ### Reading values -/

theorem textOf_eq (h : Alike ctx ctx') (t : Term) : ctx.textOf t = ctx'.textOf t :=
  h.under.textOf_eq fun _ _ ↦ trivial

theorem textsOf_eq (h : Alike ctx ctx') (t : Term) : ctx.textsOf t = ctx'.textsOf t :=
  h.under.textsOf_eq fun _ _ ↦ trivial

theorem inferFamily_eq (h : Alike ctx ctx') (t : Term) :
    ctx.inferFamily t = ctx'.inferFamily t :=
  h.under.inferFamily_eq fun _ _ ↦ trivial

theorem shapeOf (h : Alike ctx ctx') (t : Term) :
    Agree Shape.Alike (ctx.shapeOf t) (ctx'.shapeOf t) :=
  h.under.shapeOf fun _ _ ↦ trivial

theorem checkFamily_eq (h : Alike ctx ctx') (ns : Namespace) (t : Term) :
    ctx.checkFamily ns t = ctx'.checkFamily ns t :=
  h.under.checkFamily_eq (fun _ _ ↦ trivial) ns

/-- A name is refused in both contexts or in neither. -/
theorem checkFree_eq (h : Alike ctx ctx') (ns : Namespace) (name : String) :
    ctx.checkFree ns name = ctx'.checkFree ns name := by
  rw [checkFree, checkFree, h.contains_eq]

/-! ### Changes -/

/-- The next number to be minted is the same, since it depends on names and the counter alone. -/
theorem nextNumber_eq (h : Alike ctx ctx') (ns : Namespace) :
    ctx.nextNumber ns = ctx'.nextNumber ns := by
  have hcontains : ctx.registry.contains ns = ctx'.registry.contains ns :=
    funext fun name ↦ h.contains_eq ns name
  have hnames : (ctx.registry.keeper ns).names = (ctx'.registry.keeper ns).names := h.names_eq ns
  have hcounter : ctx.registry.counter = ctx'.registry.counter := h.counter_eq
  rw [nextNumber, nextNumber, Registry.nextNumber, Registry.nextNumber, hcontains, hnames, hcounter]

/-- Contexts that look alike do so with the same other counter. -/
theorem withCounter (h : Alike ctx ctx') (n : Nat) :
    Alike (ctx.withCounter n) (ctx'.withCounter n) :=
  ⟨h.factories_eq, rfl, h.order_eq, h.names_eq, h.found⟩

/-- Objects that look alike are kept alike. -/
theorem keep (h : Alike ctx ctx') {ns : Namespace} {name : String}
    (hfree : ctx.contains ns name = false) {x y : Content} (hxy : x.Alike y) :
    (ctx.keep ns name x).1.Alike (ctx'.keep ns name y).1 ∧
      Alike (ctx.keep ns name x).2 (ctx'.keep ns name y).2 := by
  have hfree' : ctx'.contains ns name = false := (h.contains_eq ns name).symm.trans hfree
  have hkept : (ctx.keep ns name x).1.Alike (ctx'.keep ns name y).1 := ⟨rfl, rfl, hxy⟩
  refine ⟨hkept, h.factories_eq, ?_, ?_, fun ns' ↦ ?_, fun ns' n ↦ ?_⟩
  · rw [counter_keep, counter_keep, h.counter_eq]
  · rw [order_keep hfree, order_keep hfree', h.order_eq]
  · rw [names_keep hfree, names_keep hfree', h.names_eq, h.names_eq]
  · rw [find?_keep hfree, find?_keep hfree']
    split
    · exact .some hkept
    · exact h.found ns' n

theorem forget (h : Alike ctx ctx') (ns : Namespace) (name : String) :
    Alike (ctx.forget ns name) (ctx'.forget ns name) := by
  have hcontains : ctx.registry.contains ns name = ctx'.registry.contains ns name :=
    h.contains_eq ns name
  refine ⟨h.factories_eq, ?_, ?_, fun ns' ↦ ?_, fun ns' n ↦ ?_⟩
  · -- Forgetting does nothing to a place that is free, and a place is free in both contexts or in
    -- neither.
    show (ctx.registry.forget ns name).counter = (ctx'.registry.forget ns name).counter
    rw [Registry.forget, Registry.forget, hcontains]
    split
    · exact h.counter_eq
    · exact h.counter_eq
  · show (ctx.registry.forget ns name).order = (ctx'.registry.forget ns name).order
    rw [Registry.forget, Registry.forget, hcontains]
    split
    · exact congrArg (List.filter (· != (ns, name))) h.order_eq
    · exact h.order_eq
  · show ((ctx.registry.forget ns name).keeper ns').names =
      ((ctx'.registry.forget ns name).keeper ns').names
    rw [Registry.keeper_forget, Registry.keeper_forget]
    split
    · rw [Keeper.forget, Keeper.forget]
      have hkeeper : (ctx.registry.keeper ns).contains name =
        (ctx'.registry.keeper ns).contains name := hcontains
      rw [hkeeper]
      split
      · exact congrArg (List.filter (· != name)) (h.names_eq ns)
      · exact h.names_eq ns
    · exact h.names_eq ns'
  · show Option.Rel Kept.Alike ((ctx.registry.forget ns name).find? ns' n)
      ((ctx'.registry.forget ns name).find? ns' n)
    rw [Registry.find?_forget, Registry.find?_forget]
    split
    · exact .none
    · exact h.found ns' n

end Alike

end Context

end TermRegistry
