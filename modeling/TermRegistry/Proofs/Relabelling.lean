import TermRegistry.Proofs.Blindness
import TermRegistry.Proofs.Cloning
import TermRegistry.Proofs.Dedup.Resolution
import TermRegistry.Proofs.Integrity

/-!
# The context of a binary labelling

The context of a binary labelling is filled entry by entry, in the order of declaration. Functions,
arrays and values are shared. Labelled components and rule sets are made anew, and the links of a
component are replaced by whatever the context under construction has under their names by then.

**Why relinking is right.** In a context of integrity a link leads to an entry that was declared
before, so its counterpart is there already, and a name that is taken keeps its object. What a
component is relinked to while the context is filled is therefore what its final context holds.
`Context.Relabels` says of a context that it has the counterparts of some entries, relinked to what
it holds itself; one more entry preserves this, and the theorem is the run over all entries.

Objects that were made anew are told from those of the source by their home: whatever construction
keeps in a context is at home there (`Context.Native`).
-/

namespace TermRegistry

/-! ### Namespaces -/

namespace Namespace

variable {ns : Namespace}

/-- Whether the context of a binary labelling has objects of its own in a namespace. -/
def isRenewed (ns : Namespace) : Bool := ns.isLabelled || ns == .ruleSet

/-- Labelled components and rule sets are made anew. -/
theorem isRenewed_eq_true : ns.isRenewed = true ↔ ns.isLabelled = true ∨ ns = .ruleSet := by
  rw [isRenewed, Bool.or_eq_true, beq_iff_eq]

/-- **Functions, arrays and values are shared.** -/
theorem isRenewed_eq_false :
    ns.isRenewed = false ↔ ns.isFunction = true ∨ ns = .array ∨ ns = .value := by
  cases ns <;> decide

end Namespace

/-- Labelled namespaces hold components. -/
theorem Content.eq_component_of_isLabelled {x : Content} {ns : Namespace}
    (hns : ns.isLabelled = true) (h : x.suits ns = true) : ∃ c, x = .component c := by
  refine eq_component_of_suits (fun hdata ↦ ?_) h
  simp only [List.mem_cons, List.not_mem_nil, or_false] at hdata
  rcases hdata with rfl | rfl | rfl <;> cases hns

/-! ### Relinking -/

section

variable {find find' : Namespace → String → Option Link}

/-- The links of an object are replaced by what is found under their names, and a component gets
the label. -/
def Content.binary (label : String) (find : Namespace → String → Option Link) : Content → Content
  | .component c => .component (c.binary label find)
  | .rules s => .rules (s.binary label)
  | x => x

namespace Component

/-- A value that is relinked looks as before. -/
theorem relink_alike (hfind : ∀ ns name link, find ns name = some link →
    link.ns = ns ∧ link.name = name) (a : Argument) : a.Alike (relink find a) := by
  obtain ⟨t, r⟩ := a
  cases r with
  | literal t' => exact ⟨rfl, .same _⟩
  | entry link =>
    rw [relink]
    split
    · next link' hlink' =>
      obtain ⟨hns, hname⟩ := hfind link.ns link.name link' hlink'
      exact ⟨rfl, .entry hns.symm hname.symm⟩
    · exact ⟨rfl, .same _⟩

/-- A component shows the same term as its counterpart. -/
theorem toTerm_binary (hfind : ∀ ns name link, find ns name = some link →
    link.ns = ns ∧ link.name = name) (c : Component) (label : String) :
    c.toTerm = (c.binary label find).toTerm := by
  have halike : c.Alike { c.binary label find with label? := c.label? } :=
    ⟨rfl, rfl, rfl, List.forall₂_map_right_iff.2
      (List.forall₂_same.2 fun v _ ↦ ⟨rfl, relink_alike hfind v.2⟩)⟩
  exact halike.toTerm_eq

/-- What is found elsewhere plays no part in relinking a component. -/
theorem binary_congr {c : Component} (label : String)
    (h : ∀ link ∈ c.links, find link.ns link.name = find' link.ns link.name) :
    c.binary label find = c.binary label find' := by
  have hvalues : c.values.map (fun v ↦ (v.1, relink find v.2)) =
      c.values.map fun v ↦ (v.1, relink find' v.2) := by
    refine List.map_congr_left fun v hv ↦ ?_
    cases hlink : v.2.link? with
    | none => rw [relink, relink, hlink, Option.bind_none, Option.bind_none]
    | some link =>
      have heq := h link (mem_links.2 ⟨v, hv, hlink⟩)
      rw [relink, relink, hlink, Option.bind_some, Option.bind_some, heq]
  rw [binary, binary, hvalues]

/-- The links of the counterpart are those found under the names of the links there were. -/
theorem exists_of_mem_links_binary {c : Component} {label : String} {link : Link}
    (hfind : ∀ link ∈ c.links, ∃ link', find link.ns link.name = some link')
    (h : link ∈ (c.binary label find).links) :
    ∃ old ∈ c.links, find old.ns old.name = some link := by
  obtain ⟨w, hw, hlink⟩ := mem_links.1 h
  obtain ⟨v, hv, rfl⟩ := List.mem_map.1 hw
  cases hold : v.2.link? with
  | none =>
    have hsame : relink find v.2 = v.2 := by rw [relink, hold, Option.bind_none]
    rw [hsame, hold] at hlink
    cases hlink
  | some old =>
    have hmem := mem_links.2 ⟨v, hv, hold⟩
    obtain ⟨link', hlink'⟩ := hfind old hmem
    have hrelinked : relink find v.2 = { v.2 with resolved := .entry link' } := by
      rw [relink, hold, Option.bind_some, hlink']
    rw [hrelinked] at hlink
    exact ⟨old, hmem, hlink'.trans hlink⟩

end Component

namespace Content

variable {x : Content} {ns : Namespace}

/-- What is found elsewhere plays no part in relinking an object. -/
theorem binary_congr (label : String)
    (h : ∀ link ∈ x.links, find link.ns link.name = find' link.ns link.name) :
    x.binary label find = x.binary label find' := by
  cases x with
  | component c => exact congrArg component (Component.binary_congr label h)
  | _ => rfl

/-- An object looks like its counterpart. -/
theorem binary_alike (hfind : ∀ ns name link, find ns name = some link →
    link.ns = ns ∧ link.name = name) (x : Content) (label : String) :
    x.Alike (x.binary label find) := by
  cases x with
  | component c => exact .component (c.toTerm_binary hfind label)
  | _ => exact .same _

/-- The counterpart suits the same namespaces. -/
theorem suits_binary (label : String) : (x.binary label find).suits ns = x.suits ns := by
  cases x <;> rfl

end Content

/-! ### Counterparts -/

/-- **The counterpart of an entry** in a context with a home: the entry itself, or a new object
under the same name that is relinked. -/
inductive Kept.Counterpart (home : Nat) (label : String)
    (find : Namespace → String → Option Link) (k : Kept) : Kept → Prop
  | shared (h : k.ns.isRenewed = false) : Counterpart home label find k k
  | renewed (serial : Nat) (h : k.ns.isRenewed = true) :
      Counterpart home label find k
        ⟨k.ns, k.name, ⟨home, serial⟩, k.content.binary label find⟩

namespace Kept.Counterpart

variable {home : Nat} {label : String} {k k' : Kept}

/-- **An entry looks like its counterpart.** -/
theorem alike (hfind : ∀ ns name link, find ns name = some link → link.ns = ns ∧ link.name = name)
    (h : k.Counterpart home label find k') : k.Alike k' := by
  cases h with
  | shared => exact ⟨rfl, rfl, .same _⟩
  | renewed => exact ⟨rfl, rfl, k.content.binary_alike hfind label⟩

/-- The counterpart is at the place of the entry. -/
theorem place_eq (h : k.Counterpart home label find k') : k'.ns = k.ns ∧ k'.name = k.name := by
  cases h with
  | shared | renewed => exact ⟨rfl, rfl⟩

/-- Its object suits the same namespaces. -/
theorem suits_eq (h : k.Counterpart home label find k') (ns : Namespace) :
    k'.content.suits ns = k.content.suits ns := by
  cases h with
  | shared => rfl
  | renewed => exact Content.suits_binary label

/-- Only what is found for the links of the entry matters for its counterpart. -/
theorem congr (hlinks : ∀ link ∈ k.content.links,
    find link.ns link.name = find' link.ns link.name) (h : k.Counterpart home label find k') :
    k.Counterpart home label find' k' := by
  cases h with
  | shared h => exact .shared h
  | renewed serial h => rw [Content.binary_congr label hlinks]; exact .renewed serial h

end Kept.Counterpart

end

namespace Context

variable {ctx ctx' made made' : Context} {label : String} {k : Kept} {ks : List Kept}

/-! ### Homes -/

/-- **What is kept is at home.** -/
def Native (ctx : Context) : Prop :=
  ∀ ns name k, ctx.find? ns name = some k → k.id.home = ctx.home

/-- Nothing is kept in an empty context. -/
theorem native_empty (home : Nat) (factories : Factories) : (empty home factories).Native := by
  intro ns name k hk
  rw [find?_empty] at hk
  cases hk

/-- **What is added to a context is made at its home.** -/
theorem Grows.native {js : List (Namespace × String)} (h : ctx.Grows js ctx')
    (hctx : ctx.Native) : ctx'.Native := by
  induction h with
  | raised hr =>
    intro ns name k hk
    rw [hr.find?_eq] at hk
    rw [hr.home_eq]
    exact hctx ns name k hk
  | @kept mid _ _ ns' name' content _ hfree _ hr ih =>
    intro ns name k hk
    rw [hr.find?_eq, find?_keep hfree] at hk
    rw [hr.home_eq]
    split at hk
    · cases hk
      rfl
    · exact ih ns name k hk

/-! ### One entry -/

/-- The link to an entry has the place that it was looked up at. -/
theorem place_of_linkOf (ctx : Context) (ns : Namespace) (name : String) (link : Link)
    (h : ctx.linkOf ns name = some link) : link.ns = ns ∧ link.name = name := by
  obtain ⟨k, hk, rfl⟩ := Option.map_eq_some_iff.1 h
  exact Registry.place_of_find? hk

/-- **The counterpart of an entry is kept** under a name that is free. -/
theorem exists_counterpart (label : String) (hsuits : k.content.suits k.ns = true)
    (hfree : made.contains k.ns k.name = false) :
    ∃ k' made', made.keepBinary label k = .ok made' ∧
      k.Counterpart made.home label made.linkOf k' ∧ (made.share k').Raised made' := by
  have hraised : ∀ x, (made.share ⟨k.ns, k.name, ⟨made.home, made.made⟩, x⟩).Raised
      (made.keep k.ns k.name x).2 := fun x ↦
    ⟨_, made.made + 1, Nat.le_refl _, Nat.le_succ _, rfl⟩
  obtain ⟨ns, name, id, x⟩ := k
  rw [keepBinary, hfree, if_neg Bool.false_ne_true]
  -- By what is kept; in each case the namespace is one of those that the object suits.
  cases x with
  | component c =>
    cases hns : ns.isLabelled with
    | true =>
      refine ⟨_, _, rfl, .renewed made.made ?_, hraised _⟩
      rw [Namespace.isRenewed, hns, Bool.true_or]
    | false =>
      refine ⟨_, _, rfl, .shared ?_, .refl _⟩
      -- No component is kept among the rule sets.
      cases ns with
      | ruleSet => cases hsuits
      | _ => exact hns
  | rules s =>
    cases ns with
    | ruleSet => exact ⟨_, _, rfl, .renewed made.made rfl, hraised _⟩
    | _ => cases hsuits
  | texts items =>
    cases ns with
    | array => exact ⟨_, _, rfl, .shared rfl, .refl _⟩
    | _ => cases hsuits
  | text s =>
    cases ns with
    | value => exact ⟨_, _, rfl, .shared rfl, .refl _⟩
    | _ => cases hsuits

/-! ### All entries -/

/-- **A context relabels some entries** if it has their counterparts, in order, relinked to what it
holds itself, and nothing else. -/
structure Relabels (made : Context) (factories : Factories) (home : Nat) (label : String)
    (ks : List Kept) : Prop where
  coherent : made.Coherent
  factories_eq : made.factories = factories
  home_eq : made.home = home
  order_eq : made.order = ks.map Kept.place
  found : ∀ k ∈ ks, ∃ k', made.find? k.ns k.name = some k' ∧
    k.Counterpart home label made.linkOf k'

/-- **Entries that link back**: the links of each lead to places of entries before it. -/
inductive LinksBack : List Kept → Prop
  | nil : LinksBack []
  | snoc {ks : List Kept} {k : Kept} (h : LinksBack ks)
      (hk : ∀ link ∈ k.content.links, (link.ns, link.name) ∈ ks.map Kept.place) :
      LinksBack (ks ++ [k])

/-- All links lead to places of entries. -/
theorem LinksBack.mem_places (h : LinksBack ks) :
    ∀ k ∈ ks, ∀ link ∈ k.content.links, (link.ns, link.name) ∈ ks.map Kept.place := by
  induction h with
  | nil => exact nofun
  | snoc _ hk ih =>
    intro l hl link hlink
    rw [List.map_append]
    refine List.mem_append_left _ ?_
    rcases List.mem_append.1 hl with hl | hl
    · exact ih l hl link hlink
    · exact hk link (List.mem_singleton.1 hl ▸ hlink)

/-- **In a context of integrity, entries link back.** -/
theorem Integral.linksBack (h : ctx.Integral) (hc : ctx.Coherent) : LinksBack ctx.entries := by
  have hprefix : ∀ ks, ks <+: ctx.entries → LinksBack ks := by
    intro ks
    induction ks using List.reverseRecOn with
    | nil => exact fun _ ↦ .nil
    | append_singleton ks k ih =>
      intro hks
      obtain ⟨rest, hrest⟩ := hks
      have hk : k ∈ ctx.entries := by
        rw [← hrest]
        exact List.mem_append_left _ (List.mem_append_right _ List.mem_cons_self)
      refine .snoc (ih ⟨k :: rest, by rw [← hrest, List.append_assoc]; rfl⟩) fun link hlink ↦ ?_
      have hprecedes : ctx.Precedes (link.ns, link.name) k.place :=
        (h k.ns k.name k (find?_of_mem_entries hk) link hlink).2
      have horder : ctx.order = ks.map Kept.place ++ k.place :: rest.map Kept.place := by
        rw [← hc.map_place_entries, ← hrest, List.append_assoc, List.map_append]
        rfl
      exact hprecedes.mem_of_order_eq hc horder
  exact hprefix ctx.entries (List.prefix_refl _)

namespace Relabels

variable {factories : Factories} {home : Nat}

/-- An empty context relabels nothing. -/
theorem empty (home : Nat) (factories : Factories) (label : String) :
    (empty home factories).Relabels factories home label [] :=
  ⟨coherent_empty home factories, rfl, rfl, rfl, nofun⟩

/-- Relabelling is not a matter of the counter. -/
theorem withCounter (h : made.Relabels factories home label ks) (n : Nat) :
    (made.withCounter n).Relabels factories home label ks :=
  ⟨h.coherent.withCounter n, h.factories_eq, h.home_eq, h.order_eq, h.found⟩

/-- **One more entry gets its counterpart**, and those there are stay relinked. -/
theorem snoc (h : made.Relabels factories home label ks)
    (hlinks : ∀ l ∈ ks ++ [k], ∀ link ∈ l.content.links,
      (link.ns, link.name) ∈ ks.map Kept.place)
    (hsuits : k.content.suits k.ns = true) (hnew : k.place ∉ ks.map Kept.place) :
    ∃ made', made.keepBinary label k = .ok made' ∧
      made'.Relabels factories home label (ks ++ [k]) := by
  have hfree : made.contains k.ns k.name = false :=
    h.coherent.contains_eq_false.2 fun hk ↦ hnew (h.order_eq ▸ hk)
  obtain ⟨k', made', hok, hk', hraised⟩ := exists_counterpart label hsuits hfree
  obtain ⟨hns, hname⟩ := hk'.place_eq
  have hfree' : made.contains k'.ns k'.name = false := by rwa [hns, hname]
  have hfind : ∀ ns name, made'.find? ns name =
      if ns = k.ns ∧ name = k.name then some k' else made.find? ns name := by
    intro ns name
    rw [hraised.find?_eq, ← hns, ← hname]
    exact Registry.find?_keep hfree' ns name
  -- The new entry is linked to by none of the entries so far, and not by itself. So what is found
  -- for their links has not changed.
  have hlinkOf : ∀ l ∈ ks ++ [k], ∀ link ∈ l.content.links,
      made.linkOf link.ns link.name = made'.linkOf link.ns link.name := by
    intro l hl link hlink
    have hplace : ¬(link.ns = k.ns ∧ link.name = k.name) := by
      rintro ⟨hns, hname⟩
      have hmem := hlinks l hl link hlink
      rw [hns, hname] at hmem
      exact hnew hmem
    rw [linkOf, linkOf, hfind, if_neg hplace]
  have hcounterpart := h.home_eq ▸ hk'.congr (hlinkOf k (by simp))
  refine ⟨made', hok, ?_, ?_, ?_, ?_, fun l hl ↦ ?_⟩
  · refine hraised.coherent (h.coherent.share ?_)
    rw [hk'.suits_eq, hns, hsuits]
  · exact hraised.factories_eq.trans h.factories_eq
  · exact hraised.home_eq.trans h.home_eq
  · rw [hraised.order_eq, List.map_append, ← h.order_eq]
    refine (Registry.order_keep hfree').trans ?_
    rw [hns, hname]
    rfl
  · rcases List.mem_append.1 hl with hmem | hmem
    · obtain ⟨l', hl', hcounterpart'⟩ := h.found l hmem
      have hplace : ¬(l.ns = k.ns ∧ l.name = k.name) := by
        rintro ⟨hns, hname⟩
        exact hnew (List.mem_map.2 ⟨l, hmem, Prod.ext hns hname⟩)
      rw [hfind, if_neg hplace]
      exact ⟨l', hl', hcounterpart'.congr (hlinkOf l hl)⟩
    · obtain rfl := List.mem_singleton.1 hmem
      rw [hfind, if_pos ⟨rfl, rfl⟩]
      exact ⟨k', rfl, hcounterpart⟩

/-- A context that relabels some entries holds entries that look like them. -/
theorem holds (h : made.Relabels factories home label ks) : made.Holds factories ks where
  coherent := h.coherent
  factories_eq := h.factories_eq
  order_eq := h.order_eq
  found k hk := by
    obtain ⟨k', hk', hcounterpart⟩ := h.found k hk
    exact ⟨k', hk', hcounterpart.alike made.place_of_linkOf⟩

/-- Every entry is the counterpart of one. -/
theorem exists_of_mem_entries {k' : Kept} (h : made.Relabels factories home label ks)
    (hk' : k' ∈ made.entries) : ∃ k ∈ ks, k.Counterpart home label made.linkOf k' := by
  have hplace : k'.place ∈ ks.map Kept.place := by
    rw [← h.order_eq, ← h.coherent.map_place_entries]
    exact List.mem_map.2 ⟨k', hk', rfl⟩
  obtain ⟨k, hk, hplace⟩ := List.mem_map.1 hplace
  obtain ⟨l, hl, hcounterpart⟩ := h.found k hk
  have hfound := find?_of_mem_entries hk'
  have hns : k.ns = k'.ns := congrArg Prod.fst hplace
  have hname : k.name = k'.name := congrArg Prod.snd hplace
  rw [hns, hname, hfound] at hl
  cases hl
  exact ⟨k, hk, hcounterpart⟩

/-- What is not made anew is shared. -/
theorem mem_entries_of_shared (h : made.Relabels factories home label ks) (hk : k ∈ ks)
    (hns : k.ns.isRenewed = false) : k ∈ made.entries := by
  obtain ⟨k', hk', hcounterpart⟩ := h.found k hk
  cases hcounterpart with
  | shared => exact mem_entries_of_find? h.coherent hk'
  | renewed _ hns' => rw [hns] at hns'; cases hns'

/-- What is made anew is at home in the context. -/
theorem home_eq_of_renewed (h : made.Relabels factories home label ks) (hk : k ∈ made.entries)
    (hns : k.ns.isRenewed = true) : k.id.home = home := by
  obtain ⟨l, -, hcounterpart⟩ := h.exists_of_mem_entries hk
  cases hcounterpart with
  | shared hns' => rw [hns] at hns'; cases hns'
  | renewed => rfl

/-- Components of labelled namespaces carry the label. -/
theorem exists_component (h : made.Relabels factories home label ks)
    (hsuits : ∀ k ∈ ks, k.content.suits k.ns = true) (hk : k ∈ made.entries)
    (hns : k.ns.isLabelled = true) :
    ∃ c, k.content = .component c ∧ c.label? = some label := by
  obtain ⟨l, hl, hcounterpart⟩ := h.exists_of_mem_entries hk
  cases hcounterpart with
  | shared hns' => rw [Namespace.isRenewed_eq_true.2 (.inl hns)] at hns'; cases hns'
  | renewed serial _ =>
    obtain ⟨c, hcontent⟩ :=
      Content.eq_component_of_isLabelled (show l.ns.isLabelled = true from hns) (hsuits l hl)
    exact ⟨c.binary label made.linkOf, congrArg (Content.binary label made.linkOf) hcontent, rfl⟩

/-- **The links of what is made anew are held.** -/
theorem holding_of_renewed (h : made.Relabels factories home label ks) (hback : LinksBack ks)
    (hk : k ∈ made.entries) (hns : k.ns.isRenewed = true) {link : Link}
    (hlink : link ∈ k.content.links) : made.Holding link := by
  obtain ⟨l, hl, hcounterpart⟩ := h.exists_of_mem_entries hk
  cases hcounterpart with
  | shared hns' => rw [hns] at hns'; cases hns'
  | renewed serial _ =>
    -- The links of the source lead to entries before it, which have their counterparts in place.
    have hfind : ∀ old ∈ l.content.links, ∃ link', made.linkOf old.ns old.name = some link' := by
      intro old hold
      have hplace := hback.mem_places l hl old hold
      rw [← h.order_eq] at hplace
      obtain ⟨m, hm⟩ := h.coherent.mem_order_iff_exists.1 hplace
      exact ⟨m.link, congrArg (Option.map Kept.link) hm⟩
    generalize l.content = x at hfind hlink
    cases x with
    | component c =>
      obtain ⟨old, -, hlinkOf⟩ := Component.exists_of_mem_links_binary hfind hlink
      obtain ⟨m, hm, rfl⟩ := Option.map_eq_some_iff.1 hlinkOf
      exact holding_link hm
    | _ => cases hlink

end Relabels

/-- **A context is relabelled** if its entries link back. -/
theorem LinksBack.relabels (h : LinksBack ks) (hsuits : ∀ k ∈ ks, k.content.suits k.ns = true)
    (hnodup : (ks.map Kept.place).Nodup) (home : Nat) (factories : Factories) (label : String) :
    ∃ made, ks.foldlM (·.keepBinary label) (empty home factories) = .ok made ∧
      made.Relabels factories home label ks := by
  induction h with
  | nil => exact ⟨_, rfl, .empty home factories label⟩
  | @snoc ks k hback hk ih =>
    rw [List.map_append, List.nodup_append] at hnodup
    obtain ⟨made, hmade, hrelabels⟩ :=
      ih (fun l hl ↦ hsuits l (List.mem_append_left _ hl)) hnodup.1
    have hnew : k.place ∉ ks.map Kept.place := fun hmem ↦
      hnodup.2.2 _ hmem _ List.mem_cons_self rfl
    -- All links lead to entries that are in place already.
    have hlinks : ∀ l ∈ ks ++ [k], ∀ link ∈ l.content.links,
        (link.ns, link.name) ∈ ks.map Kept.place := by
      intro l hl
      rcases List.mem_append.1 hl with hl | hl
      · exact hback.mem_places l hl
      · exact List.mem_singleton.1 hl ▸ hk
    obtain ⟨made', hmade', hrelabels'⟩ := hrelabels.snoc hlinks
      (hsuits k (List.mem_append_right _ List.mem_cons_self)) hnew
    refine ⟨made', ?_, hrelabels'⟩
    rw [List.foldlM_append, hmade]
    refine bind_eq_ok.2 ⟨made, rfl, ?_⟩
    rw [List.foldlM_cons]
    exact bind_eq_ok.2 ⟨made', hmade', rfl⟩

/-- **Deriving the context of a binary labelling succeeds** for a context of integrity. -/
theorem Integral.exists_binary (h : ctx.Integral) (hc : ctx.Coherent) (label : String)
    (home : Nat) :
    ∃ made, (ctx.binary label home).result = .ok made ∧ (ctx.binary label home).reports = [] ∧
      made.counter = ctx.counter ∧ made.Relabels ctx.factories home label ctx.entries := by
  have hnodup : (ctx.entries.map Kept.place).Nodup := hc.map_place_entries ▸ hc.order_nodup
  obtain ⟨made, hmade, hrelabels⟩ := (h.linksBack hc).relabels
    (fun k hk ↦ hc.suits_of_mem_entries hk) hnodup home ctx.factories label
  have hbinary : ctx.binary label home = .of (.ok (made.withCounter ctx.counter)) := by
    rw [binary, sibling, hmade]
    rfl
  rw [hbinary]
  exact ⟨_, rfl, rfl, rfl, hrelabels.withCounter _⟩

/-- **Binary labellings relabel.** After any run from an empty context, deriving the context of a
binary labelling under another home succeeds and reports nothing. The context has the same order,
the same text and the same counter. Functions, arrays and values are the very entries of the source;
labelled components and rule sets are other objects than any there. Each labelled component is the
one of the source with the label, and with every parameter that resolved to an entry relinked to
what the context itself holds under the namespace and the name of that entry. The source is a value
that is only read. -/
theorem binary_relabels {home home' : Nat} (hhome : home' ≠ home) (factories : Factories)
    (ops : List Operation) (label : String) :
    let ctx := (empty home factories).run ops
    ∃ made, (ctx.binary label home').result = .ok made ∧ (ctx.binary label home').reports = [] ∧
      made.order = ctx.order ∧ made.render = ctx.render ∧ made.counter = ctx.counter ∧
      (∀ k ∈ ctx.entries, k.ns.isFunction = true ∨ k.ns = .array ∨ k.ns = .value →
        k ∈ made.entries) ∧
      (∀ k ∈ made.entries, k.ns.isLabelled = true ∨ k.ns = .ruleSet →
        ∀ l ∈ ctx.entries, k.id ≠ l.id) ∧
      (∀ k ∈ ctx.entries, k.ns.isLabelled = true → ∃ c id, k.content = .component c ∧
        ⟨k.ns, k.name, id, .component (c.binary label made.linkOf)⟩ ∈ made.entries) ∧
      (∀ k ∈ made.entries, k.ns.isLabelled = true → ∃ c, k.content = .component c ∧
        c.label? = some label ∧ ∀ name a link, (name, a) ∈ c.values → a.link? = some link →
          made.linkOf link.ns link.name = some link) := by
  intro ctx
  have hempty := coherent_empty home factories
  obtain ⟨js, hgrows⟩ := run_grows ops hempty
  have hc : ctx.Coherent := hgrows.coherent hempty
  have hintegral : ctx.Integral := preserved_integral.run hempty (.empty home factories) ops
  have hnative : ctx.Native := hgrows.native (native_empty home factories)
  have hctxhome : ctx.home = home := hgrows.home_eq
  clear_value ctx
  obtain ⟨made, hmade, hreports, hcounter, hrelabels⟩ := hintegral.exists_binary hc label home'
  refine ⟨made, hmade, hreports, hrelabels.order_eq.trans hc.map_place_entries, ?_, hcounter,
    fun k hk hns ↦ hrelabels.mem_entries_of_shared hk (Namespace.isRenewed_eq_false.2 hns),
    fun k hk hns l hl hid ↦ ?_, fun k hk hns ↦ ?_, fun k hk hns ↦ ?_⟩
  · -- Both contexts look like the one that holds the entries, whatever their counters.
    have halike := hrelabels.holds.alike fun k hk ↦ hc.suits_of_mem_entries hk
    have halike' := hc.holds.alike fun k hk ↦ hc.suits_of_mem_entries hk
    have hstatements := halike.statements_eq.symm.trans halike'.statements_eq
    exact congrArg (fun es ↦ (Listing.ofEntries es).render) hstatements
  · refine hhome ?_
    rw [← hrelabels.home_eq_of_renewed hk (Namespace.isRenewed_eq_true.2 hns), hid, ← hctxhome]
    exact hnative _ _ _ (find?_of_mem_entries hl)
  · obtain ⟨c, hcontent⟩ := Content.eq_component_of_isLabelled hns (hc.suits_of_mem_entries hk)
    obtain ⟨k', hk', hcounterpart⟩ := hrelabels.found k hk
    have hmem := mem_entries_of_find? hrelabels.coherent hk'
    cases hcounterpart with
    | shared hns' => rw [Namespace.isRenewed_eq_true.2 (.inl hns)] at hns'; cases hns'
    | renewed serial _ =>
      rw [hcontent] at hmem
      exact ⟨c, ⟨home', serial⟩, hcontent, hmem⟩
  · obtain ⟨c, hcontent, hlabel⟩ := hrelabels.exists_component
      (fun k hk ↦ hc.suits_of_mem_entries hk) hk hns
    refine ⟨c, hcontent, hlabel, fun name a link ha hlink ↦ ?_⟩
    have hmem : link ∈ k.content.links := by
      rw [hcontent]
      exact Component.mem_links.2 ⟨(name, a), ha, hlink⟩
    exact hrelabels.holding_of_renewed (hintegral.linksBack hc) hk
      (Namespace.isRenewed_eq_true.2 (.inl hns)) hmem

/-- A function is shared, and a feature that refers to it and to another feature is made anew. -/
theorem binary_relabels_shared :
    let call : Term := .call "H" ⟨[⟨.named "fn", [], .reference "T"⟩,
      ⟨.named "a", [], .reference "A"⟩], .parameters⟩ none
    let c : Component :=
      { genericName := "H"
        values := [("fn", ⟨.reference "T", .entry ⟨.spanFn, "T", ⟨0, 1⟩⟩⟩),
          ("a", ⟨.reference "A", .entry ⟨.feature, "A", ⟨0, 0⟩⟩⟩)] }
    let ctx := (empty 0 ⟨[], [.feature, .spanFn]⟩).run
      [.construct .feature (some "A") (.call "F" {} none),
        .construct .spanFn (some "T") (.call "G" {} none), .construct .feature (some "B") call]
    (1 : Nat) ≠ 0 ∧ ∃ made, (ctx.binary "pos" 1).result = .ok made ∧ made.render = ctx.render ∧
      ⟨.spanFn, "T", ⟨0, 1⟩, .component { genericName := "G" }⟩ ∈ made.entries ∧
      ∃ id : Identity, id ≠ ⟨0, 2⟩ ∧
        ⟨.feature, "B", id, .component (c.binary "pos" made.linkOf)⟩ ∈ made.entries := by
  intro call c ctx
  have hT : (⟨.spanFn, "T", ⟨0, 1⟩, .component { genericName := "G" }⟩ : Kept) ∈ ctx.entries := by
    decide +kernel
  have hB : (⟨.feature, "B", ⟨0, 2⟩, .component c⟩ : Kept) ∈ ctx.entries := by decide +kernel
  obtain ⟨made, hmade, -, -, hrender, -, hshared, hrenewed, hlabelled, -⟩ :=
    binary_relabels (by decide : (1 : Nat) ≠ 0) ⟨[], [.feature, .spanFn]⟩
      [.construct .feature (some "A") (.call "F" {} none),
        .construct .spanFn (some "T") (.call "G" {} none), .construct .feature (some "B") call]
      "pos"
  obtain ⟨c', id, hc', hmem⟩ := hlabelled _ hB rfl
  cases hc'
  exact ⟨by decide, made, hmade, hrender, hshared _ hT (.inl rfl), id,
    hrenewed _ hmem (.inl rfl) _ hB, hmem⟩

end Context

end TermRegistry
