import TermRegistry.Proofs.Relabelling

/-!
# What the context of a binary labelling leads to

A component of the context of a binary labelling is relinked one level deep. The functions it links
to are shared with the source, and with them the links that they have there. So the labelled
components do not lead back into the source just as long as no function on the way links to a
labelled component: along a labelled component one stays in the new context, where its links are
held, and along a function one is in the source, where its links are held.

Objects are told apart by their links, which carry identities. An object that one is led to belongs
to one of the two contexts, and may belong to both.
-/

namespace TermRegistry

/-- Objects with links are components. -/
theorem Content.isLabelled_or_isFunction_of_mem_links {x : Content} {ns : Namespace} {link : Link}
    (hsuits : x.suits ns = true) (h : link ∈ x.links) :
    ns.isLabelled = true ∨ ns.isFunction = true := by
  cases x with
  | component c => cases ns <;> first | exact .inl rfl | exact .inr rfl | cases hsuits
  | _ => cases h

namespace Context

/-- **An object refers to another one**, of a context or of a context derived from it, if it has a
link to it. -/
def Refers (ctx made : Context) (k l : Kept) : Prop :=
  l.link ∈ k.content.links ∧ (l ∈ ctx.entries ∨ l ∈ made.entries)

/-- **An object leads to another one** if it refers to it in any number of steps. -/
def Leads (ctx made : Context) : Kept → Kept → Prop := Relation.ReflTransGen (Refers ctx made)

variable {ctx made : Context} {label : String} {home : Nat} {factories : Factories} {k l : Kept}

/-- An entry is told by its place. -/
theorem eq_of_mem_entries (hk : k ∈ ctx.entries) (hl : l ∈ ctx.entries) (hns : k.ns = l.ns)
    (hname : k.name = l.name) : k = l := by
  have hfound := find?_of_mem_entries hk
  rw [hns, hname, find?_of_mem_entries hl] at hfound
  exact (Option.some.inj hfound).symm

namespace Relabels

/-- What was made anew is not in the source. -/
theorem notMem_of_renewed (h : made.Relabels factories home label ctx.entries)
    (hnative : ctx.Native) (hhome : home ≠ ctx.home) (hk : k ∈ made.entries)
    (hns : k.ns.isRenewed = true) : k ∉ ctx.entries := fun hk' ↦
  hhome ((h.home_eq_of_renewed hk hns).symm.trans (hnative _ _ _ (find?_of_mem_entries hk')))

/-- What was not made anew is in the source. -/
theorem mem_of_shared (h : made.Relabels factories home label ctx.entries) (hk : k ∈ made.entries)
    (hns : k.ns.isRenewed = false) : k ∈ ctx.entries := by
  obtain ⟨l, hl, hcounterpart⟩ := h.exists_of_mem_entries hk
  cases hcounterpart with
  | shared => exact hl
  | renewed _ hns' => rw [hns'] at hns; cases hns

/-- **What is held by the new context is there**, even if it was found in the source. -/
theorem mem_of_holding (h : made.Relabels factories home label ctx.entries) (hnative : ctx.Native)
    (hhome : home ≠ ctx.home) (hl : l ∈ ctx.entries ∨ l ∈ made.entries)
    (hheld : made.Holding l.link) : l ∈ made.entries := by
  rcases hl with hl | hl
  · obtain ⟨m, hm, hlink⟩ := Option.map_eq_some_iff.1 hheld
    have hm' := mem_entries_of_find? h.coherent hm
    obtain ⟨hns, hname⟩ := Registry.place_of_find? hm
    cases hrenewed : m.ns.isRenewed with
    | true =>
      have hid : m.id = l.id := congrArg Link.id hlink
      have hhome' := h.home_eq_of_renewed hm' hrenewed
      rw [hid, hnative _ _ _ (find?_of_mem_entries hl)] at hhome'
      exact absurd hhome'.symm hhome
    | false => exact eq_of_mem_entries (h.mem_of_shared hm' hrenewed) hl hns hname ▸ hm'
  · exact hl

/-- **One step stays inside**: an object of the new context refers to objects there and to rule sets
alone, unless it is a function with a link to a labelled component. -/
theorem mem_of_refers (h : made.Relabels factories home label ctx.entries) (hc : ctx.Coherent)
    (hintegral : ctx.Integral) (hnative : ctx.Native) (hhome : home ≠ ctx.home)
    (hk : k ∈ made.entries) (hkl : ctx.Refers made k l)
    (hfunction : k.ns.isFunction = true → ∀ link ∈ k.content.links, link.ns.isLabelled = false) :
    l ∈ made.entries ∨ l.content.links = [] ∧ l.ns.isLabelled = false := by
  obtain ⟨hlink, hl⟩ := hkl
  have hsuits := h.coherent.suits_of_mem_entries hk
  rcases Content.isLabelled_or_isFunction_of_mem_links hsuits hlink with hns | hns
  · have hheld := h.holding_of_renewed (hintegral.linksBack hc) hk
      (Namespace.isRenewed_eq_true.2 (.inl hns)) hlink
    exact .inl (h.mem_of_holding hnative hhome hl hheld)
  · rcases hl with hl | hl
    · have hunlabelled := hfunction hns l.link hlink
      by_cases hrules : l.ns = .ruleSet
      · have hsuits' := hc.suits_of_mem_entries hl
        obtain ⟨ns, name, id, x⟩ := l
        cases hrules
        obtain ⟨s, rfl⟩ := Content.eq_rules_of_suits hsuits'
        exact .inr ⟨rfl, rfl⟩
      · refine .inl (h.mem_entries_of_shared hl ?_)
        rw [Bool.eq_false_iff, Ne, Namespace.isRenewed_eq_true, not_or]
        exact ⟨Bool.eq_false_iff.1 hunlabelled, hrules⟩
    · exact .inl hl

/-- **Any number of steps stays inside**, if no function on the way links to a labelled
component. -/
theorem mem_of_leads (h : made.Relabels factories home label ctx.entries) (hc : ctx.Coherent)
    (hintegral : ctx.Integral) (hnative : ctx.Native) (hhome : home ≠ ctx.home)
    (hk : k ∈ made.entries)
    (hfunctions : ∀ f, ctx.Leads made k f → f.ns.isFunction = true →
      ∀ link ∈ f.content.links, link.ns.isLabelled = false) (hkl : ctx.Leads made k l) :
    l ∈ made.entries ∨ l.content.links = [] ∧ l.ns.isLabelled = false := by
  induction hkl with
  | refl => exact .inl hk
  | tail hkf hfl ih =>
    rcases ih with hf | ⟨hlinks, -⟩
    · exact h.mem_of_refers hc hintegral hnative hhome hf hfl (hfunctions _ hkf)
    · have hlink := hfl.1
      rw [hlinks] at hlink
      cases hlink

end Relabels

/-- **Binary labellings are closed up to the links of functions.** Take a labelled component of the
context of a binary labelling that was derived, under another home, from a context reached by any
run from an empty one. Following links from it in any number of steps, through functions as well,
leads to no labelled component of the source if and only if no function on the way links to a
labelled component. -/
theorem binary_closed_iff {home home' : Nat} (hhome : home' ≠ home) (factories : Factories)
    (ops : List Operation) (label : String) {made : Context} {k : Kept}
    (hmade : (((empty home factories).run ops).binary label home').result = .ok made)
    (hk : k ∈ made.entries) (hns : k.ns.isLabelled = true) :
    let ctx := (empty home factories).run ops
    (∀ l, ctx.Leads made k l → l.ns.isLabelled = true → l ∈ made.entries ∧ l ∉ ctx.entries) ↔
      ∀ f, ctx.Leads made k f → f.ns.isFunction = true →
        ∀ link ∈ f.content.links, link.ns.isLabelled = false := by
  intro ctx
  have hempty := coherent_empty home factories
  obtain ⟨js, hgrows⟩ := run_grows ops hempty
  have hc : ctx.Coherent := hgrows.coherent hempty
  have hintegral : ctx.Integral := preserved_integral.run hempty (.empty home factories) ops
  have hnative : ctx.Native := hgrows.native (native_empty home factories)
  have hctxhome : ctx.home = home := hgrows.home_eq
  obtain ⟨made', hmade', -, -, hrelabels⟩ := hintegral.exists_binary hc label home'
  obtain rfl : made = made' := Except.ok.inj (hmade.symm.trans hmade')
  rw [← hctxhome] at hhome
  constructor
  · intro hclosed f hkf hf link hlink
    by_contra hlabelled
    rw [Bool.not_eq_false] at hlabelled
    -- The function is one of the source, which holds its links.
    have hfctx : f ∈ ctx.entries := by
      have hshared := Namespace.isRenewed_eq_false.2 (.inl hf)
      rcases Relation.ReflTransGen.cases_tail hkf with rfl | ⟨-, -, -, hfctx | hfmade⟩
      · exact hrelabels.mem_of_shared hk hshared
      · exact hfctx
      · exact hrelabels.mem_of_shared hfmade hshared
    obtain ⟨hheld, -⟩ := hintegral f.ns f.name f (find?_of_mem_entries hfctx) link hlink
    obtain ⟨l, hl, rfl⟩ := Option.map_eq_some_iff.1 hheld
    have hlctx := mem_entries_of_find? hc hl
    exact (hclosed l (hkf.tail ⟨hlink, .inl hlctx⟩) hlabelled).2 hlctx
  · intro hfunctions l hkl hlabelled
    rcases hrelabels.mem_of_leads hc hintegral hnative hhome hk hfunctions hkl with hl | ⟨-, hl⟩
    · exact ⟨hl, hrelabels.notMem_of_renewed hnative hhome hl
        (Namespace.isRenewed_eq_true.2 (.inl hlabelled))⟩
    · rw [hlabelled] at hl
      cases hl

/-- A feature whose function has no links leads to the new counterpart of another feature alone. -/
theorem binary_closed_iff_unlinked :
    let call : Term := .call "H" ⟨[⟨.named "fn", [], .reference "T"⟩,
      ⟨.named "a", [], .reference "A"⟩], .parameters⟩ none
    let ctx := (empty 0 ⟨[], [.feature, .spanFn]⟩).run
      [.construct .feature (some "A") (.call "F" {} none),
        .construct .spanFn (some "T") (.call "G" {} none), .construct .feature (some "B") call]
    let k : Kept := ⟨.feature, "B", ⟨1, 1⟩, .component
      { genericName := "H"
        values := [("fn", ⟨.reference "T", .entry ⟨.spanFn, "T", ⟨0, 1⟩⟩⟩),
          ("a", ⟨.reference "A", .entry ⟨.feature, "A", ⟨1, 0⟩⟩⟩)]
        label? := some "pos" }⟩
    ∃ made, (ctx.binary "pos" 1).result = .ok made ∧ k ∈ made.entries ∧
      ∀ l, ctx.Leads made k l → l.ns.isLabelled = true → l ∈ made.entries ∧ l ∉ ctx.entries := by
  intro call ctx k
  let made : Context := (ctx.binary "pos" 1).result.toOption.getD ctx
  have hmade : (ctx.binary "pos" 1).result = .ok made := toOption_eq_some.1 (by decide +kernel)
  have hk : k ∈ made.entries := by decide +kernel
  have hfunctions : ∀ f ∈ ctx.entries ++ made.entries, f.ns.isFunction = true →
      f.content.links = [] := by
    decide +kernel
  refine ⟨made, hmade, hk, (binary_closed_iff (by decide : (1 : Nat) ≠ 0) ⟨[], [.feature, .spanFn]⟩
    [.construct .feature (some "A") (.call "F" {} none),
      .construct .spanFn (some "T") (.call "G" {} none), .construct .feature (some "B") call]
    "pos" hmade hk rfl).2 fun f hkf hf link hlink ↦ ?_⟩
  rcases Relation.ReflTransGen.cases_tail hkf with rfl | ⟨-, -, -, hmem⟩
  · cases hf
  · rw [hfunctions f (List.mem_append.2 hmem) hf] at hlink
    cases hlink

/-- A feature of the new context leads to a feature of the source, through a function that links to
it. -/
theorem binary_open_through_function :
    let ctx := (empty 0 ⟨[], [.feature, .spanFn]⟩).run
      [.construct .feature (some "A") (.call "F" {} none),
        .construct .spanFn (some "T")
          (.call "G" ⟨[⟨.named "x", [], .reference "A"⟩], .parameters⟩ none),
        .construct .feature (some "B")
          (.call "H" ⟨[⟨.named "fn", [], .reference "T"⟩], .parameters⟩ none)]
    ∃ made, (ctx.binary "pos" 1).result = .ok made ∧ ∃ k ∈ made.entries,
      k.ns.isLabelled = true ∧ ∃ l, ctx.Leads made k l ∧ l.ns.isLabelled = true ∧
        l ∈ ctx.entries ∧ l ∉ made.entries := by
  intro ctx
  let made : Context := (ctx.binary "pos" 1).result.toOption.getD ctx
  have hmade : (ctx.binary "pos" 1).result = .ok made := toOption_eq_some.1 (by decide +kernel)
  let a : Kept := ⟨.feature, "A", ⟨0, 0⟩, .component { genericName := "F" }⟩
  let t : Kept := ⟨.spanFn, "T", ⟨0, 1⟩, .component
    { genericName := "G", values := [("x", ⟨.reference "A", .entry a.link⟩)] }⟩
  let b : Kept := ⟨.feature, "B", ⟨1, 1⟩, .component
    { genericName := "H", values := [("fn", ⟨.reference "T", .entry t.link⟩)],
      label? := some "pos" }⟩
  have hb : b ∈ made.entries := by decide +kernel
  have ha : a ∈ ctx.entries ∧ a ∉ made.entries := by decide +kernel
  have hbt : ctx.Refers made b t := ⟨List.mem_singleton.2 rfl, .inl (by decide +kernel)⟩
  have hta : ctx.Refers made t a := ⟨List.mem_singleton.2 rfl, .inl ha.1⟩
  exact ⟨made, hmade, b, hb, rfl, a, .tail (.single hbt) hta, rfl, ha.1, ha.2⟩

end Context

end TermRegistry
