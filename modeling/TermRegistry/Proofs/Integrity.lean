import TermRegistry.Proofs.Reachable

/-!
# Referential integrity

A component keeps links to the entries that its parameters resolved to. A link is taken while the
definition around it is still being built, and what it leads to may have been kept for a sibling, or
be taken back when a prototype is rejected. Whatever survives is nevertheless in order: in a context
that was reached by construction every link of a component leads to the very object that is kept
under its name, and that entry was declared before the component.

The invariant is carried along courses of construction, in which nothing is taken back. On the way
it speaks of the links alone that have been collected so far (`Built.Held`); that they come first in
the order follows when the component is kept, because it is put behind everything there is.
-/

namespace TermRegistry

/-! ### Links -/

/-- The link that a value resolved to, if it is one. -/
def Resolved.link? : Resolved → Option Link
  | literal _ => none
  | entry link => some link

/-- The links of a component: those that its parameters resolved to. -/
def Component.links (c : Component) : List Link := c.values.filterMap (·.2.link?)

/-- The links of a live object. -/
def Content.links : Content → List Link
  | component c => c.links
  | _ => []

namespace Component

variable {c c' : Component} {link : Link}

theorem mem_links : link ∈ c.links ↔ ∃ v ∈ c.values, v.2.link? = some link :=
  List.mem_filterMap

theorem links_withInternal (c : Component) (internal : Option (List (Entry Term))) :
    (c.withInternal internal).links = c.links := by
  cases internal <;> rfl

/-- Setting a parameter adds no link but the one that its value resolved to. -/
theorem mem_links_of_set {name : String} {a : Argument} (hset : c.set name a = .ok c')
    (h : link ∈ c'.links) : link ∈ c.links ∨ a.link? = some link := by
  obtain ⟨v, hv, hlink⟩ := mem_links.1 h
  rw [set] at hset
  split at hset
  · cases hset
  split at hset
  · cases hset
    -- The value under the name is replaced, or a new one is put at the end.
    simp only [put] at hv
    split at hv
    · obtain ⟨w, hw, rfl⟩ := List.mem_map.1 hv
      split at hlink
      · exact .inr hlink
      · exact .inl (mem_links.2 ⟨w, hw, hlink⟩)
    · rcases List.mem_append.1 hv with hv | hv
      · exact .inl (mem_links.2 ⟨v, hv, hlink⟩)
      · rw [List.mem_singleton.1 hv] at hlink
        exact .inr hlink
  · cases hset

end Component

namespace Context

variable {ctx ctx' : Context}

/-- **A link is held** if the context keeps, under the name of the link, the very object it leads
to. -/
def Holding (ctx : Context) (link : Link) : Prop := ctx.linkOf link.ns link.name = some link

theorem holding_link {ns : Namespace} {name : String} {k : Kept} (h : ctx.find? ns name = some k) :
    ctx.Holding k.link := by
  obtain ⟨hns, hname⟩ := Registry.place_of_find? h
  have hk : ctx.find? k.ns k.name = some k := by rw [hns, hname, h]
  show (ctx.find? k.ns k.name).map Kept.link = some k.link
  rw [hk, Option.map_some]

/-- What is held stays held. -/
theorem Holding.grows {link : Link} {js : List (Namespace × String)} (h : ctx.Holding link)
    (hgrows : ctx.Grows js ctx') : ctx'.Holding link := by
  obtain ⟨k, hk, hlink⟩ := Option.map_eq_some_iff.1 h
  show (ctx'.find? link.ns link.name).map Kept.link = some link
  rw [hgrows.find?_eq hk, Option.map_some, hlink]

/-- The place of a link that is held is in the order. -/
theorem Holding.mem_order {link : Link} (h : ctx.Holding link) (hc : ctx.Coherent) :
    (link.ns, link.name) ∈ ctx.order := by
  obtain ⟨k, hk, -⟩ := Option.map_eq_some_iff.1 h
  exact hc.mem_order_iff_exists.2 ⟨k, hk⟩

/-! ### The invariant -/

/-- **Contexts of integrity**: the links of every entry are held, and the entries they lead to are
declared before it. -/
def Integral (ctx : Context) : Prop :=
  ∀ ns name k, ctx.find? ns name = some k → ∀ link ∈ k.content.links,
    ctx.Holding link ∧
      ∃ before behind, ctx.order = before ++ (ns, name) :: behind ∧ (link.ns, link.name) ∈ before

namespace Integral

theorem empty (home : Nat) (factories : Factories) : (empty home factories).Integral := by
  intro ns name k hk
  rw [find?_empty] at hk
  cases hk

theorem raised (h : ctx.Integral) (hr : ctx.Raised ctx') : ctx'.Integral := by
  intro ns name k hk link hlink
  rw [hr.find?_eq] at hk
  obtain ⟨hholding, hprecedes⟩ := h ns name k hk link hlink
  exact ⟨hholding.grows (.raised hr), Precedes.raised hprecedes hr⟩

/-- **Keeping an object whose links are held preserves integrity**: it is put behind all of them. -/
theorem keep (h : ctx.Integral) (hc : ctx.Coherent) {ns : Namespace} {name : String} {x : Content}
    (hfree : ctx.contains ns name = false) (hsuits : x.suits ns = true)
    (hx : ∀ link ∈ x.links, ctx.Holding link) : (ctx.keep ns name x).2.Integral := by
  have hgrows : ctx.Grows [(ns, name)] (ctx.keep ns name x).2 :=
    .kept (.refl ctx) hfree hsuits (.refl _)
  intro ns' n k hk link hlink
  rw [find?_keep hfree] at hk
  split at hk
  · next hplace =>
    obtain ⟨rfl, rfl⟩ := hplace
    cases hk
    have hholding := hx link hlink
    exact ⟨hholding.grows hgrows, precedes_keep hfree (hholding.mem_order hc)⟩
  · obtain ⟨hholding, hprecedes⟩ := h ns' n k hk link hlink
    exact ⟨hholding.grows hgrows, Precedes.keep hprecedes hfree⟩

end Integral

end Context

/-! ### Courses of construction -/

/-- Whether the links that a construction starts from on its way are held. -/
def Built.StartsHeld (ctx : Context) : Built → Prop
  | .parameters _ _ _ _ c _ => ∀ link ∈ c.links, ctx.Holding link
  | _ => True

/-- Whether the links that a construction yields on its way are held. -/
def Built.Held (ctx : Context) : Built → Prop
  | .content _ _ x => ∀ link ∈ x.links, ctx.Holding link
  | .parameters _ _ _ _ _ c => ∀ link ∈ c.links, ctx.Holding link
  | .argument _ _ r => ∀ link, r.link? = some link → ctx.Holding link
  | .entry _ _ k => ctx.Holding k.link
  | .new .. => True

namespace Context

/-- What an entry resolves to where anything may stand is held. -/
theorem holding_of_settled {ctx : Context} {t : Term} {r : Resolved} {link : Link}
    (h : ctx.shapeOf t = .ok (.settled r)) (hlink : r.link? = some link) : ctx.Holding link := by
  cases t with
  | reference name =>
    rw [shapeOf] at h
    split at h
    · next k hk =>
      cases h
      obtain ⟨ns, -, hfound⟩ := List.exists_of_findSome?_eq_some hk
      rw [Kept.resolved] at hlink
      split at hlink
      · cases hlink
      · cases hlink
      · cases hlink
        exact holding_link hfound
    · cases h
  | call name parameters internal =>
    rw [shapeOf] at h
    split at h
    · cases h
    · split at h
      · cases h
      · cases h
        cases hlink
  | capture name => cases h
  | _ =>
    cases h
    cases hlink

end Context

/-- **Courses of construction preserve integrity**, and the links they collect are held. -/
theorem Builds.integral {ctx ctx' : Context} {b : Built} (h : Builds ctx b ctx')
    (hc : ctx.Coherent) (hctx : ctx.Integral) (hb : b.StartsHeld ctx) :
    ctx'.Integral ∧ b.Held ctx' := by
  induction h with
  | named _ hx hfree ih =>
    obtain ⟨js, hgrows⟩ := hx.grows
    obtain ⟨hctx', hheld⟩ := ih hc hctx trivial
    exact ⟨hctx'.keep (hgrows.coherent hc) hfree hx.suits hheld, trivial⟩
  | @numbered ctx _ ns _ _ hx hfree ih =>
    have hraised := Context.Raised.mint ctx ns
    obtain ⟨js, hgrows⟩ := hx.grows
    obtain ⟨hctx', hheld⟩ := ih (hraised.coherent hc) (hctx.raised hraised) trivial
    exact ⟨hctx'.keep (hgrows.coherent (hraised.coherent hc)) hfree hx.suits hheld, trivial⟩
  | referred h =>
    exact ⟨hctx, Context.holding_link h⟩
  | matched _ h =>
    have hfound := (Context.find?_of_mem_inNamespace (Context.mem_of_singleMatch h)).2
    exact ⟨hctx, Context.holding_link hfound⟩
  | @matchedLater ctx _ _ ns _ _ _ _ _ h' ih =>
    have hraised := Context.Raised.mint ctx ns
    have hfound := (Context.find?_of_mem_inNamespace (Context.mem_of_singleMatch h')).2
    exact ⟨(ih (hraised.coherent hc) (hctx.raised hraised) trivial).1,
      Context.holding_link hfound⟩
  | @made ctx _ _ ns _ _ _ hx _ hfree ih =>
    have hraised := Context.Raised.mint ctx ns
    obtain ⟨js, hgrows⟩ := hx.grows
    obtain ⟨hctx', hheld⟩ := ih (hraised.coherent hc) (hctx.raised hraised) trivial
    exact ⟨hctx'.keep (hgrows.coherent (hraised.coherent hc)) hfree hx.suits hheld,
      Context.holding_link (Context.find?_keep_self hfree)⟩
  | array | value | ruleSet => exact ⟨hctx, nofun⟩
  | component _ _ _ hraised _ ih =>
    -- A fresh component has no links yet, and the internal listing adds none.
    obtain ⟨hctx', hheld⟩ := ih (hraised.coherent hc) (hctx.raised hraised) nofun
    refine ⟨hctx', fun link hlink ↦ hheld link ?_⟩
    rwa [Content.links, Component.links_withInternal] at hlink
  | noParameters => exact ⟨hctx, hb⟩
  | parameter _ _ hr hset _ ihr ih =>
    obtain ⟨js, hgrows⟩ := hr.grows
    obtain ⟨hctx', hheld⟩ := ihr hc hctx trivial
    refine ih (hgrows.coherent hc) hctx' fun link hlink ↦ ?_
    rcases Component.mem_links_of_set hset hlink with hlink | hlink
    · exact (hb link hlink).grows hgrows
    · exact hheld link hlink
  | text | texts => exact ⟨hctx, nofun⟩
  | settled h => exact ⟨hctx, fun link hlink ↦ Context.holding_of_settled h hlink⟩
  | entry _ ih | function _ _ ih | definition _ _ ih =>
    obtain ⟨hctx', hheld⟩ := ih hc hctx trivial
    refine ⟨hctx', fun link hlink ↦ ?_⟩
    cases hlink
    exact hheld

namespace Context

/-- **Integrity is preserved by construction.** -/
theorem preserved_integral : Preserved (fun _ ↦ True) Integral where
  raised h hr := h.raised hr
  new hc h _ hb := (hb.integral hc h trivial).1
  entry hc h _ hb := (hb.integral hc h trivial).1

/-- **Referential integrity.** After any run from an empty context, whether its operations succeed
or fail, every parameter of a component that resolved to an entry links to the very object that is
kept under the namespace and the name of the link, and that place comes before the component in the
order of declaration. -/
theorem links_held (home : Nat) (factories : Factories) (ops : List Operation) (k : Kept)
    (c : Component) (name : String) (a : Argument) (link : Link)
    (hk : k ∈ ((empty home factories).run ops).entries) (hcomponent : k.content = .component c)
    (ha : (name, a) ∈ c.values) (hlink : a.link? = some link) :
    ((empty home factories).run ops).linkOf link.ns link.name = some link ∧
      ((empty home factories).run ops).order.idxOf (link.ns, link.name) <
        ((empty home factories).run ops).order.idxOf (k.ns, k.name) := by
  have hempty := coherent_empty home factories
  have hintegral := preserved_integral.run hempty (.empty home factories) ops
  have hmem : link ∈ k.content.links := by
    rw [hcomponent]
    exact Component.mem_links.2 ⟨(name, a), ha, hlink⟩
  obtain ⟨hholding, before, behind, horder, hbefore⟩ :=
    hintegral k.ns k.name k (find?_of_mem_entries hk) link hmem
  refine ⟨hholding, ?_⟩
  obtain ⟨js, hgrows⟩ := run_grows ops hempty
  have hnodup := (hgrows.coherent hempty).order_nodup
  -- No place is declared twice, so that of the component is not among those before it.
  have hnew : (k.ns, k.name) ∉ before := by
    intro hk'
    have horder' : ((empty home factories).run ops).registry.order =
      before ++ (k.ns, k.name) :: behind := horder
    rw [horder', List.nodup_append] at hnodup
    exact hnodup.2.2 _ hk' _ List.mem_cons_self rfl
  rw [horder, List.idxOf_append_of_mem hbefore, List.idxOf_append_of_notMem hnew]
  have hlt := List.idxOf_lt_length_of_mem hbefore
  omega

/-- The first of two prototypes keeps a nested definition and then rejects the definition around it,
so that the entry is taken back. The component that the second one makes links to the entry that was
kept anew, not to the one that is gone. -/
theorem links_held_rejected :
    let xs : List Parameter := [{ name := "x", kind := .entry .strFn }]
    let schema : List Parameter := xs ++ [{ name := "y", kind := .array }]
    let factories : Factories :=
      ⟨[.ofSchema .feature "F" (xs ++ [{ name := "y", kind := .text }]),
        .ofSchema .feature "F" schema], [.strFn]⟩
    let nested : Term := .call "G" {} none
    let call : Term :=
      .call "F" ⟨[⟨.named "x", [], nested⟩, ⟨.named "y", [], .array []⟩], .parameters⟩ none
    let link : Link := ⟨.strFn, "2", ⟨0, 1⟩⟩
    let c : Component :=
      { genericName := "F", schema? := some schema,
        values := [("x", ⟨nested, .entry link⟩), ("y", .literal (.array []))] }
    let ctx := (empty 0 factories).run [.getOrConstruct .feature call]
    ⟨.feature, "0", ⟨0, 2⟩, .component c⟩ ∈ ctx.entries ∧ ctx.linkOf .strFn "2" = some link ∧
      ctx.order.idxOf (.strFn, "2") < ctx.order.idxOf (.feature, "0") := by
  intro xs schema factories nested call link c ctx
  have hk : (⟨.feature, "0", ⟨0, 2⟩, .component c⟩ : Kept) ∈ ctx.entries := by decide +kernel
  have hx : ("x", ⟨nested, .entry link⟩) ∈ c.values := List.mem_cons_self
  have hheld := links_held 0 factories [.getOrConstruct .feature call]
    ⟨.feature, "0", ⟨0, 2⟩, .component c⟩ c "x" ⟨nested, .entry link⟩ link hk rfl hx rfl
  exact ⟨hk, hheld⟩

end Context

end TermRegistry
