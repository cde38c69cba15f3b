import TermRegistry.Proofs.Blindness
import TermRegistry.Proofs.Legible
import TermRegistry.Proofs.Reachable

/-!
# What a clone is like

A clone is built by declaring the terms of all entries anew, in order. Arrays, values and rule sets
come out as they were. A component need not: the definitions inside its term are looked for once
more, now in a context where entries that were made for other definitions stand beside the ones that
were there at first, so that a definition may have become ambiguous, or an entry of another
definition may be taken for its own; and another prototype may accept the term than the one that
made it.

**Reproduced contexts.** `Context.Reproduces` says that none of this happens. It speaks of each
component by itself: built anew from its own term in a context that holds the entries declared
before it, it comes out with the same term, and without any entry beside it. The entries are those
of the original, not of the clone; that the two look alike is all that a construction can tell. A
prototype that rejects a term may have used up numbers, so the number that minting goes on from is
handed on from one entry to the next.
-/

namespace TermRegistry

namespace Context

/-! ### Entries and the order -/

section

variable {ctx : Context}

/-- The entries are at the places of the order. -/
theorem Coherent.map_place_entries (hc : ctx.Coherent) :
    ctx.entries.map Kept.place = ctx.order := by
  have hplaces : ∀ es : List (Namespace × String), es ⊆ ctx.order →
      (es.filterMap fun e ↦ ctx.find? e.1 e.2).map Kept.place = es := by
    intro es hes
    induction es with
    | nil => rfl
    | cons e es ih =>
      obtain ⟨he, hes⟩ := List.cons_subset.1 hes
      obtain ⟨k, hk⟩ := hc.mem_order_iff_exists.1 he
      obtain ⟨hns, hname⟩ := Registry.place_of_find? hk
      have hhead : (e :: es).filterMap (fun e ↦ ctx.find? e.1 e.2) =
        k :: es.filterMap fun e ↦ ctx.find? e.1 e.2 := List.filterMap_cons_some hk
      rw [hhead, List.map_cons, ih hes]
      exact congrArg (· :: es) (Prod.ext hns hname)
  exact hplaces ctx.order (List.Subset.refl _)

end

end Context

/-! ### Objects with the same term -/

namespace Content

variable {x y : Content} {ns : Namespace}

/-- **What shows the same term in the same namespace looks alike.** -/
theorem alike_of_toTerm (hx : x.suits ns = true) (hy : y.suits ns = true)
    (h : x.toTerm = y.toTerm) : x.Alike y := by
  cases ns with
  | array =>
    obtain ⟨items, rfl⟩ := eq_texts_of_suits hx
    obtain ⟨items', rfl⟩ := eq_texts_of_suits hy
    have hinjective : Function.Injective Term.text := fun _ _ ↦ Term.text.inj
    exact List.map_injective_iff.2 hinjective (Term.array.inj h) ▸ .same _
  | value =>
    obtain ⟨s, rfl⟩ := eq_text_of_suits hx
    obtain ⟨s', rfl⟩ := eq_text_of_suits hy
    exact Term.text.inj h ▸ .same _
  | ruleSet =>
    obtain ⟨s, rfl⟩ := eq_rules_of_suits hx
    obtain ⟨s', rfl⟩ := eq_rules_of_suits hy
    exact RuleSet.toTerm_injective h ▸ .same _
  | _ =>
    obtain ⟨c, rfl⟩ := eq_component_of_suits (by decide) hx
    obtain ⟨d, rfl⟩ := eq_component_of_suits (by decide) hy
    exact .component h

end Content

namespace Context

/-! ### Contexts that hold given entries -/

/-- The context that some entries are kept in, in order, and that mints from a number on. -/
def holding (ctx : Context) (ks : List Kept) (n : Nat) : Context :=
  (ks.foldl share (ctx.sibling ctx.home)).withCounter n

/-- **A context holds some entries** if these are its entries in order, or look like them. -/
structure Holds (made : Context) (factories : Factories) (ks : List Kept) : Prop where
  coherent : made.Coherent
  factories_eq : made.factories = factories
  order_eq : made.order = ks.map Kept.place
  found : ∀ k ∈ ks, ∃ l, made.find? k.ns k.name = some l ∧ k.Alike l

section

variable {ctx made : Context} {ks : List Kept} {k : Kept}

/-- Entries that are shared into a context are all there, and in order, if their places are free. -/
theorem found_foldl_share {base : Context} (hc : base.Coherent)
    (hsuits : ∀ k ∈ ks, k.content.suits k.ns = true)
    (hnodup : (base.order ++ ks.map Kept.place).Nodup) :
    (ks.foldl share base).factories = base.factories ∧
    (ks.foldl share base).order = base.order ++ ks.map Kept.place ∧
    (∀ ns name k, base.find? ns name = some k → (ks.foldl share base).find? ns name = some k) ∧
    ∀ k ∈ ks, (ks.foldl share base).find? k.ns k.name = some k := by
  induction ks generalizing base with
  | nil => exact ⟨rfl, (List.append_nil _).symm, fun _ _ _ h ↦ h, nofun⟩
  | cons k ks ih =>
    -- The places behind are free still, because all of them are different.
    have hnew : (k.ns, k.name) ∉ base.order := by
      rw [List.nodup_append] at hnodup
      exact fun hk ↦ hnodup.2.2 _ hk _ List.mem_cons_self rfl
    have hfree := hc.contains_eq_false.2 hnew
    have horder : (base.share k).order = base.order ++ [k.place] := Registry.order_keep hfree
    have hself : (base.share k).find? k.ns k.name = some k := by
      refine (Registry.find?_keep hfree _ _).trans ?_
      rw [if_pos ⟨rfl, rfl⟩]
      rfl
    obtain ⟨hfactories, horder', hkept, hfound⟩ :=
      ih (hc.share (hsuits k List.mem_cons_self))
        (fun l hl ↦ hsuits l (List.mem_cons_of_mem k hl)) (by rwa [horder, List.append_assoc])
    refine ⟨hfactories, ?_, fun ns name l hl ↦ ?_, fun l hl ↦ ?_⟩
    · rw [List.foldl_cons, horder', horder, List.append_assoc]
      rfl
    · exact hkept ns name l (Registry.find?_keep_of_find? hl)
    · rcases List.mem_cons.1 hl with rfl | hl
      · exact hkept _ _ _ hself
      · exact hfound l hl

/-- The context that entries are kept in holds them. -/
theorem holds_holding (ctx : Context) (hsuits : ∀ k ∈ ks, k.content.suits k.ns = true)
    (hnodup : (ks.map Kept.place).Nodup) (n : Nat) :
    (ctx.holding ks n).Holds ctx.factories ks ∧
      ∀ k ∈ ks, (ctx.holding ks n).find? k.ns k.name = some k := by
  have hempty : (ctx.sibling ctx.home).Coherent := coherent_empty ctx.home ctx.factories
  obtain ⟨hfactories, horder, -, hfound⟩ := found_foldl_share hempty hsuits hnodup
  have hcoherent : (ctx.holding ks n).Coherent := (hempty.foldl_share hsuits).withCounter n
  exact ⟨⟨hcoherent, hfactories, horder, fun k hk ↦ ⟨k, hfound k hk, rfl, rfl, .same _⟩⟩, hfound⟩

namespace Holds

/-- **Contexts that hold the same entries look alike.** -/
theorem alike (h : made.Holds ctx.factories ks)
    (hsuits : ∀ k ∈ ks, k.content.suits k.ns = true) :
    (ctx.holding ks made.counter).Alike made := by
  have hnodup : (ks.map Kept.place).Nodup := h.order_eq ▸ h.coherent.order_nodup
  obtain ⟨hholding, hexact⟩ := holds_holding ctx hsuits hnodup made.counter
  have horder : (ctx.holding ks made.counter).order = made.order :=
    hholding.order_eq.trans h.order_eq.symm
  refine ⟨hholding.factories_eq.trans h.factories_eq.symm, rfl, horder, fun ns ↦ ?_,
    fun ns name ↦ ?_⟩
  · refine (hholding.coherent.names_eq ns).symm.trans (Eq.trans ?_ (h.coherent.names_eq ns))
    exact congrArg (fun o ↦ (List.filter (fun e ↦ e.1 = ns) o).map Prod.snd) horder
  · -- A place is in the order of both contexts, and then they have the same entry there, or it is
    -- in neither order, and then it is free in both.
    by_cases hplace : (ns, name) ∈ ks.map Kept.place
    · obtain ⟨k, hk, hplace⟩ := List.mem_map.1 hplace
      cases hplace
      obtain ⟨l, hl, hkl⟩ := h.found k hk
      rw [hexact k hk, hl]
      exact .some hkl
    · rw [← hholding.order_eq] at hplace
      have hfree := hholding.coherent.contains_eq_false.2 hplace
      rw [horder] at hplace
      have hfree' := h.coherent.contains_eq_false.2 hplace
      have hnone := Registry.find?_eq_none.2 hfree
      have hnone' := Registry.find?_eq_none.2 hfree'
      show Option.Rel _ ((ctx.holding ks made.counter).registry.find? ns name)
        (made.registry.find? ns name)
      rw [hnone, hnone']
      exact .none

/-- A context that holds some entries and grows by one more holds that one too. -/
theorem snoc {made' : Context} {factories : Factories} {js : List (Namespace × String)} {l : Kept}
    (h : made.Holds factories ks) (hgrows : made.Grows js made')
    (horder : made'.order = (ks ++ [k]).map Kept.place)
    (hl : made'.find? k.ns k.name = some l) (hterm : l.toTerm = k.toTerm)
    (hsuits : k.content.suits k.ns = true) : made'.Holds factories (ks ++ [k]) := by
  have hcoherent := hgrows.coherent h.coherent
  refine ⟨hcoherent, hgrows.factories_eq.trans h.factories_eq, horder, fun k' hk' ↦ ?_⟩
  rcases List.mem_append.1 hk' with hk' | hk'
  · obtain ⟨l', hl', halike⟩ := h.found k' hk'
    exact ⟨l', hgrows.find?_eq hl', halike⟩
  · obtain rfl := List.mem_singleton.1 hk'
    obtain ⟨hns, hname⟩ := Registry.place_of_find? hl
    have hlsuits : l.content.suits k'.ns = true := hns ▸ hcoherent.suits_of_find? hl
    exact ⟨l, hl, hns.symm, hname.symm, Content.alike_of_toTerm hsuits hlsuits hterm.symm⟩

end Holds

/-! ### Building entries anew -/

theorem declaredNamespace_statement (k : Kept) : declaredNamespace k.statement = .ok k.ns := by
  show Namespace.parse k.ns.tag = .ok k.ns
  rw [Namespace.parse, Namespace.ofTag?_tag]

theorem declare_statement (k : Kept) :
    made.declare k.statement = made.construct k.ns (some k.name) k.toTerm :=
  declare_eq (declaredNamespace_statement k)

/-- Whatever is built without a change to the context is kept as it is. -/
theorem construct_of_content {ns : Namespace} {name : String} {t : Term} {x : Content}
    (hfree : made.contains ns name = false)
    (hx : Build.outcome (Build.content (Build.populateFrom t) t ns) ⟨made, []⟩ =
      (.ok x, ⟨made, []⟩)) :
    (made.construct ns (some name) t).result = .ok (made.keep ns name x).1 ∧
      (made.construct ns (some name) t).context = (made.keep ns name x).2 := by
  have hname : Build.outcome (Build.nameFor ns (some name)) ⟨made, []⟩ =
      (.ok name, ⟨made, []⟩) := by
    refine Build.outcome_bind_ok (a := ()) (q := ⟨made, []⟩) ?_ _
    rw [Build.outcome_ask]
    show (made.checkFree ns name, _) = _
    rw [checkFree, hfree]
    rfl
  have hconstruct : Build.outcome (Build.construct ns (some name) t) ⟨made, []⟩ =
      (.ok (made.keep ns name x).1, ⟨(made.keep ns name x).2, [(ns, name)]⟩) := by
    rw [Build.construct, Build.outcome_bind_ok hname, Build.outcome_bind_ok hx, Build.outcome_keep]
    show (if made.contains ns name = true then _ else _) = _
    rw [hfree]
    rfl
  exact perform_of_outcome hconstruct

/-- Texts are read off the array of them. -/
theorem itemTexts_map_text (items : List String) :
    itemTexts (items.map Term.text) = .ok items := by
  induction items with
  | nil => rfl
  | cons s items ih =>
    rw [List.map_cons, itemTexts, ih]
    rfl

/-- **Arrays, values and rule sets come out as they were.** -/
theorem construct_data (hdata : ∀ c, k.content ≠ .component c)
    (hsuits : k.content.suits k.ns = true) (hfree : made.contains k.ns k.name = false) :
    (made.construct k.ns (some k.name) k.toTerm).result =
        .ok (made.keep k.ns k.name k.content).1 ∧
      (made.construct k.ns (some k.name) k.toTerm).context =
        (made.keep k.ns k.name k.content).2 := by
  refine construct_of_content hfree ?_
  obtain ⟨ns, name, id, x⟩ := k
  have hx : x.suits ns = true := hsuits
  -- Arrays, values and rule sets are made of their terms alone, so nothing is asked of the context.
  cases ns with
  | array =>
    obtain ⟨items, rfl⟩ := Content.eq_texts_of_suits hx
    refine Build.outcome_bind_ok (a := items) (q := ⟨made, []⟩) ?_ _
    rw [Build.outcome_ask]
    exact congrArg (·, _) (itemTexts_map_text items)
  | value =>
    obtain ⟨s, rfl⟩ := Content.eq_text_of_suits hx
    rfl
  | ruleSet =>
    obtain ⟨s, rfl⟩ := Content.eq_rules_of_suits hx
    refine Build.outcome_bind_ok (a := s) (q := ⟨made, []⟩) ?_ _
    rw [Build.outcome_liftM]
    exact congrArg (·, _) (RuleSet.ofTerm_toTerm s)
  | _ =>
    obtain ⟨c, rfl⟩ := Content.eq_component_of_suits (by decide) hx
    exact absurd rfl (hdata c)

/-! ### One entry -/

/-- **An entry is reproduced** behind some entries, with minting going on from a number, if it is no
component, or if it is a component that is built anew from its own term as it was, and alone.
Minting then goes on from the last number. -/
inductive Reproduces (ctx : Context) (before : List Kept) (n : Nat) (k : Kept) : Nat → Prop
  | data (hk : ∀ c, k.content ≠ .component c) : Reproduces ctx before n k n
  | component {c : Component} {k' : Kept} (hk : k.content = .component c)
      (hmade : ((ctx.holding before n).construct k.ns (some k.name) k.toTerm).result = .ok k')
      (hterm : k'.toTerm = k.toTerm)
      (halone : ((ctx.holding before n).construct k.ns (some k.name) k.toTerm).context.order =
        before.map Kept.place ++ [k.place]) :
      Reproduces ctx before n k
        ((ctx.holding before n).construct k.ns (some k.name) k.toTerm).context.counter

/-- What is built anew in a context and in one that looks alike comes out alike. -/
theorem Holds.construct {before : List Kept} (h : made.Holds ctx.factories before)
    (hsuits : ∀ k ∈ before, k.content.suits k.ns = true) (k : Kept) :
    Agree Kept.Alike
        ((ctx.holding before made.counter).construct k.ns (some k.name) k.toTerm).result
        (made.declare k.statement).result ∧
      Alike ((ctx.holding before made.counter).construct k.ns (some k.name) k.toTerm).context
        (made.declare k.statement).context := by
  rw [declare_statement]
  exact (h.alike hsuits).perform (Build.agrees_construct k.ns (some k.name) k.toTerm)

/-- What is declared anew under its name is found there. -/
theorem Holds.find?_declare {before : List Kept} (h : made.Holds ctx.factories before) {l : Kept}
    (hl : (made.declare k.statement).result = .ok l) :
    l.place = k.place ∧ (made.declare k.statement).context.find? k.ns k.name = some l := by
  obtain ⟨ns, hns, hbuilds⟩ := declare_ok h.coherent hl
  rw [declaredNamespace_statement] at hns
  cases hns
  obtain ⟨hns, hfound⟩ := hbuilds.find?_eq_of_new
  have hname : l.name = k.name := hbuilds.name_eq_of_new
  rw [hns, hname] at hfound
  exact ⟨Prod.ext hns hname, hfound⟩

/-- **An entry that is reproduced is declared anew as it was**, in any context that holds the same
entries before. -/
theorem Reproduces.declare {before : List Kept} {m : Nat}
    (h : ctx.Reproduces before made.counter k m) (hmade : made.Holds ctx.factories before)
    (hbefore : ∀ k ∈ before, k.content.suits k.ns = true) (hk : k.content.suits k.ns = true)
    (hfree : made.contains k.ns k.name = false) :
    ∃ l, (made.declare k.statement).result = .ok l ∧
      (made.declare k.statement).context.Holds ctx.factories (before ++ [k]) ∧
      (made.declare k.statement).context.counter = m := by
  obtain ⟨js, hgrows⟩ := declare_grows k.statement hmade.coherent
  have hplaces : (before ++ [k]).map Kept.place = before.map Kept.place ++ [k.place] :=
    List.map_append
  cases h with
  | data hdata =>
    obtain ⟨hok, hcontext⟩ := construct_data hdata hk hfree
    rw [← declare_statement] at hok hcontext
    have horder := order_keep (x := k.content) hfree
    refine ⟨_, hok, hmade.snoc hgrows ?_ (hmade.find?_declare hok).2 rfl hk, ?_⟩
    · rw [hcontext, horder, hmade.order_eq, hplaces]
      rfl
    · rw [hcontext, counter_keep]
  | @component c k' hc hok hterm halone =>
    -- What is built beside the entries themselves is built alike beside those that look like them.
    obtain ⟨hresult, halike⟩ := hmade.construct hbefore k
    rw [hok] at hresult
    generalize hl : (made.declare k.statement).result = r at hresult
    cases hresult with
    | @ok _ l hkl =>
      refine ⟨l, rfl, hmade.snoc hgrows ?_ (hmade.find?_declare hl).2 ?_ hk, halike.counter_eq.symm⟩
      · rw [← halike.order_eq, halone, hplaces]
      · rw [← hkl.toTerm_eq, hterm]

/-- **An entry that is declared anew as it was is reproduced.** -/
theorem Holds.reproduces {before : List Kept} (hmade : made.Holds ctx.factories before)
    (hbefore : ∀ k ∈ before, k.content.suits k.ns = true) (hk : k.content.suits k.ns = true)
    (hfree : made.contains k.ns k.name = false) {l : Kept}
    (hl : (made.declare k.statement).result = .ok l) (hterm : l.toTerm = k.toTerm)
    (horder : (made.declare k.statement).context.order = before.map Kept.place ++ [k.place]) :
    ctx.Reproduces before made.counter k (made.declare k.statement).context.counter := by
  cases hcontent : k.content with
  | component c =>
    -- The copy so far and the context that holds the same entries are alike. So the same statement
    -- has the same outcome in both, up to identities.
    obtain ⟨hresult, halike⟩ := hmade.construct hbefore k
    rw [hl] at hresult
    generalize hk' : ((ctx.holding before made.counter).construct k.ns (some k.name)
      k.toTerm).result = r at hresult
    cases hresult with
    | @ok k' _ hkl =>
      rw [← halike.counter_eq]
      exact .component hcontent hk' (hkl.toTerm_eq.trans hterm) (halike.order_eq.trans horder)
  | rules | texts | text =>
    have hdata : ∀ c, k.content ≠ .component c := fun c ↦ by
      rw [hcontent]
      nofun
    have hcontext := (construct_data hdata hk hfree).2
    rw [← declare_statement] at hcontext
    rw [hcontext, counter_keep]
    exact .data hdata

/-! ### All entries -/

/-- **Entries are reproduced**, each of them behind those before it. -/
inductive ReproducesAll (ctx : Context) : List Kept → Nat → List Kept → Nat → Prop
  | nil {before : List Kept} {n : Nat} : ReproducesAll ctx before n [] n
  | cons {before ks : List Kept} {n m n' : Nat} {k : Kept} (hk : ctx.Reproduces before n k m)
      (h : ReproducesAll ctx (before ++ [k]) m ks n') : ReproducesAll ctx before n (k :: ks) n'

/-- A place behind those of some entries is free in a context that holds these. -/
theorem Holds.contains_eq_false {factories : Factories} {before : List Kept}
    (h : made.Holds factories before) (hnodup : ((before ++ k :: ks).map Kept.place).Nodup) :
    made.contains k.ns k.name = false := by
  refine h.coherent.contains_eq_false.2 ?_
  show (k.ns, k.name) ∉ made.order
  rw [h.order_eq]
  rw [List.map_append, List.nodup_append] at hnodup
  exact fun hplace ↦ hnodup.2.2 _ hplace _ List.mem_cons_self rfl

/-- **Entries that are reproduced are declared anew as they were.** -/
theorem ReproducesAll.declareAll {before : List Kept} {n' : Nat}
    (h : ctx.ReproducesAll before made.counter ks n') (hmade : made.Holds ctx.factories before)
    (hsuits : ∀ k ∈ before ++ ks, k.content.suits k.ns = true)
    (hnodup : ((before ++ ks).map Kept.place).Nodup) :
    (made.declareAll (ks.map Kept.statement)).result = .ok () ∧
      (made.declareAll (ks.map Kept.statement)).context.Holds ctx.factories (before ++ ks) ∧
      (made.declareAll (ks.map Kept.statement)).context.counter = n' := by
  induction ks generalizing made before with
  | nil =>
    cases h
    rw [List.append_nil]
    exact ⟨rfl, hmade, rfl⟩
  | cons k ks ih =>
    cases h with
    | cons hk h =>
      obtain ⟨l, hl, hholds, hcounter⟩ :=
        hk.declare hmade (fun j hj ↦ hsuits j (List.mem_append_left _ hj))
          (hsuits k (List.mem_append_right before List.mem_cons_self))
          (hmade.contains_eq_false hnodup)
      rw [← hcounter] at h
      rw [List.append_cons] at hsuits hnodup ⊢
      rw [List.map_cons, declareAll_cons_ok hl]
      exact ih h hholds hsuits hnodup

/-- Every statement that succeeds declares an entry at least. -/
theorem length_order_declareAll {ss : List (Entry Term)} (hc : ctx.Coherent)
    (h : (ctx.declareAll ss).result = .ok ()) :
    ctx.order.length + ss.length ≤ (ctx.declareAll ss).context.order.length := by
  induction ss generalizing ctx with
  | nil => exact Nat.le_refl _
  | cons s ss ih =>
    cases hs : (ctx.declare s).result with
    | error e =>
      rw [(declareAll_cons_error ss hs).1] at h
      cases h
    | ok k =>
      obtain ⟨ns, -, hbuilds⟩ := declare_ok hc hs
      obtain ⟨js, horder⟩ := hbuilds.order_eq_of_new
      obtain ⟨ks, hgrows⟩ := declare_grows s hc
      rw [declareAll_cons_ok hs] at h ⊢
      have hlength := congrArg List.length horder
      rw [List.length_append, List.length_append, List.length_singleton] at hlength
      have hrest := ih (hgrows.coherent hc) h
      rw [List.length_cons]
      omega

/-- **Entries that are declared anew as they were are reproduced**: there is no room for another
entry beside one of them, because each of the others needs a place of its own. -/
theorem Holds.reproducesAll {before : List Kept} (hmade : made.Holds ctx.factories before)
    (hsuits : ∀ k ∈ before ++ ks, k.content.suits k.ns = true)
    (hok : (made.declareAll (ks.map Kept.statement)).result = .ok ())
    (horder : (made.declareAll (ks.map Kept.statement)).context.order =
      (before ++ ks).map Kept.place)
    (hfound : ∀ k ∈ ks, ∃ l,
      (made.declareAll (ks.map Kept.statement)).context.find? k.ns k.name = some l ∧
        l.toTerm = k.toTerm) :
    ctx.ReproducesAll before made.counter ks
      (made.declareAll (ks.map Kept.statement)).context.counter := by
  induction ks generalizing made before with
  | nil => exact .nil
  | cons k ks ih =>
    have hnodup : ((before ++ k :: ks).map Kept.place).Nodup := by
      obtain ⟨js, hgrows⟩ := declareAll_grows ((k :: ks).map Kept.statement) hmade.coherent
      exact horder ▸ (hgrows.coherent hmade.coherent).order_nodup
    have hfree := hmade.contains_eq_false hnodup
    cases hl : (made.declare k.statement).result with
    | error e =>
      rw [List.map_cons, (declareAll_cons_error _ hl).1] at hok
      cases hok
    | ok l =>
      rw [List.map_cons, declareAll_cons_ok hl] at hok horder hfound ⊢
      obtain ⟨js, hgrows⟩ := declare_grows k.statement hmade.coherent
      have hcoherent := hgrows.coherent hmade.coherent
      obtain ⟨js', hgrows'⟩ := declareAll_grows (ks.map Kept.statement) hcoherent
      obtain ⟨hplace, hfind⟩ := hmade.find?_declare hl
      -- The entry comes out with the term that it has in the end.
      have hterm : l.toTerm = k.toTerm := by
        obtain ⟨l', hl', hterm⟩ := hfound k List.mem_cons_self
        rw [hgrows'.find?_eq hfind] at hl'
        cases hl'
        exact hterm
      -- It comes out alone.
      have halone : (made.declare k.statement).context.order =
          before.map Kept.place ++ [k.place] := by
        obtain ⟨ns, -, hbuilds⟩ := declare_ok hmade.coherent hl
        obtain ⟨ds, hds⟩ := hbuilds.order_eq_of_new
        rw [hmade.order_eq, hplace] at hds
        have hlength := length_order_declareAll hcoherent hok
        rw [horder, hds] at hlength
        simp only [List.length_append, List.length_map, List.length_cons,
          List.length_nil] at hlength
        have hnone : ds = [] := List.length_eq_zero_iff.1 (by omega)
        rw [hds, hnone, List.append_nil]
      have hbefore : ∀ j ∈ before, j.content.suits j.ns = true := fun j hj ↦
        hsuits j (List.mem_append_left _ hj)
      have hk : k.content.suits k.ns = true :=
        hsuits k (List.mem_append_right before List.mem_cons_self)
      have hplaces : (before ++ [k]).map Kept.place = before.map Kept.place ++ [k.place] :=
        List.map_append
      have hholds := hmade.snoc hgrows (halone.trans hplaces.symm) hfind hterm hk
      rw [List.append_cons] at hsuits horder
      refine .cons (hmade.reproduces hbefore hk hfree hl hterm halone) ?_
      exact ih hholds hsuits hok horder fun j hj ↦ hfound j (List.mem_cons_of_mem k hj)

end

/-! ### Clones -/

/-- The namespace, the name and the term of an entry are read off its statement. -/
theorem eq_of_statement_eq {k l : Kept} (h : k.statement = l.statement) :
    k.ns = l.ns ∧ k.name = l.name ∧ k.toTerm = l.toTerm := by
  have hlabel := Label.typed.inj (congrArg Entry.label h)
  have hns : Namespace.ofTag? k.ns.tag = Namespace.ofTag? l.ns.tag :=
    congrArg Namespace.ofTag? hlabel.1
  rw [Namespace.ofTag?_tag, Namespace.ofTag?_tag] at hns
  exact ⟨Option.some.inj hns, hlabel.2, congrArg Entry.value h⟩

/-- **Contexts that are reached by reading**: from an empty one with well-formed defaults, by
loading texts and by building entries from terms that were parsed, whether this succeeds or
fails. -/
inductive Authored : Context → Prop
  | empty (home : Nat) {factories : Factories} (h : factories.Legible) :
      Authored (.empty home factories)
  | load {ctx : Context} (h : Authored ctx) (text : String) : Authored (ctx.load text).context
  | construct {ctx : Context} (h : Authored ctx) (ns : Namespace) (name? : Option String)
      {text : String} {t : Term} (ht : Term.parse text = .ok t) :
      Authored (ctx.construct ns name? t).context
  | getOrConstruct {ctx : Context} (h : Authored ctx) (ns : Namespace) {text : String} {t : Term}
      (ht : Term.parse text = .ok t) : Authored (ctx.getOrConstruct ns t).context

namespace Authored

variable {ctx : Context}

theorem reachable (h : ctx.Authored) : ctx.Reachable := by
  induction h with
  | empty home => exact .empty home _
  | load _ text ih => exact ih.after (.load text)
  | construct _ ns name? _ ih => exact ih.after (.construct ns name? _)
  | getOrConstruct _ ns _ ih => exact ih.after (.getOrConstruct ns _)

/-- What is reached by reading can be written. -/
theorem legible (h : ctx.Authored) : ctx.Legible := by
  induction h with
  | empty home hf =>
    refine ⟨hf, fun ns name k hk ↦ ?_⟩
    rw [find?_empty] at hk
    cases hk
  | load h text ih => exact ih.load h.reachable.coherent text
  | construct h ns name? ht ih =>
    have ht := Term.isWellFormed_of_parse ht
    exact preserved_legible.construct h.reachable.coherent ih ns name? ht
  | getOrConstruct h ns ht ih =>
    have ht := Term.isWellFormed_of_parse ht
    exact preserved_legible.getOrConstruct h.reachable.coherent ih ns ht

end Authored

/-- A legible context is cloned by declaring the statements of its entries. -/
theorem Legible.clone_eq {ctx : Context} (h : ctx.Legible) (home : Nat) :
    (ctx.clone home).result =
      ((ctx.sibling home).declareAll (ctx.entries.map Kept.statement)).result.map fun _ ↦
        ((ctx.sibling home).declareAll (ctx.entries.map Kept.statement)).context.withCounter
          (max ((ctx.sibling home).declareAll (ctx.entries.map Kept.statement)).context.counter
            ctx.counter) := by
  rw [clone, load_of_parse h.parse_render]

/-- A context holds its own entries. -/
theorem Coherent.holds {ctx : Context} (hc : ctx.Coherent) :
    ctx.Holds ctx.factories ctx.entries where
  coherent := hc
  factories_eq := rfl
  order_eq := hc.map_place_entries.symm
  found k hk := ⟨k, find?_of_mem_entries hk, rfl, rfl, .same _⟩

/-- **Clones are faithful just where all entries are reproduced.** A context that is reached by
reading has a clone with the same text, the same order and the same counter if and only if each of
its components, built anew behind the entries before it, comes out as it was and alone, and no more
numbers are used up by it all than were used before. -/
theorem Authored.clone_faithful_iff {ctx : Context} (h : ctx.Authored) (home : Nat) :
    (∃ made, (ctx.clone home).result = .ok made ∧ made.render = ctx.render ∧
        made.order = ctx.order ∧ made.counter = ctx.counter) ↔
      ∃ n ≤ ctx.counter, ctx.ReproducesAll [] 0 ctx.entries n := by
  have hc := h.reachable.coherent
  have hlegible := h.legible
  have hbase : (ctx.sibling home).Holds ctx.factories [] :=
    ⟨coherent_empty home ctx.factories, rfl, rfl, nofun⟩
  have hsuits : ∀ k ∈ [] ++ ctx.entries, k.content.suits k.ns = true := fun k hk ↦
    hc.suits_of_mem_entries hk
  have hnodup : (([] ++ ctx.entries).map Kept.place).Nodup := hc.map_place_entries ▸ hc.order_nodup
  rw [hlegible.clone_eq home]
  constructor
  · rintro ⟨made, hmade, hrender, horder, hcounter⟩
    obtain ⟨⟨⟩, hok, rfl⟩ := map_eq_ok.1 hmade
    have hmadeLegible : ((ctx.sibling home).declareAll
        (ctx.entries.map Kept.statement)).context.Legible := by
      have hsibling : (ctx.sibling home).Legible :=
        ⟨hlegible.factories, fun ns name k hk ↦ by rw [sibling, find?_empty] at hk; cases hk⟩
      have hload := hsibling.load hbase.coherent ctx.render
      rw [load_of_parse hlegible.parse_render] at hload
      exact hload
    have hstatements := hmadeLegible.statements_eq hlegible hrender
    have hle := Nat.le_trans (Nat.le_max_left _ _) (Nat.le_of_eq hcounter)
    refine ⟨_, hle, hbase.reproducesAll hsuits hok ?_ fun k hk ↦ ?_⟩
    · exact horder.trans hc.map_place_entries.symm
    -- Texts that are equal have equal statements, and each of these belongs to an entry.
    · have hmem : k.statement ∈ ctx.entries.map Kept.statement := List.mem_map.2 ⟨k, hk, rfl⟩
      rw [← hstatements] at hmem
      obtain ⟨l, hl, hlk⟩ := List.mem_map.1 hmem
      obtain ⟨hns, hname, hterm⟩ := eq_of_statement_eq hlk
      exact ⟨l, hns ▸ hname ▸ find?_of_mem_entries hl, hterm⟩
  · rintro ⟨n, hn, hreproduces⟩
    obtain ⟨hok, hholds, hcounter⟩ := hreproduces.declareAll hbase hsuits hnodup
    refine ⟨_, congrArg _ hok, ?_, ?_, ?_⟩
    -- Both contexts look like the one that holds the entries, whatever their counters.
    · have halike := hholds.alike hsuits
      have halike' := hc.holds.alike hsuits
      have hstatements := halike.statements_eq.symm.trans halike'.statements_eq
      exact congrArg (fun es ↦ (Listing.ofEntries es).render) hstatements
    · exact hholds.order_eq.trans hc.map_place_entries
    · exact (congrArg (max · ctx.counter) hcounter).trans (Nat.max_eq_right hn)

/-- A definition inside a feature becomes an entry of its own, and the term of the feature finds
that one again. -/
theorem Authored.clone_faithful_iff_nested :
    let factories := (Factories.standard.withFallback .feature).withFallback .strFn
    let nested : Term := .call "Filter" ⟨[⟨.named "type", [], .text "X"⟩], .parameters⟩ none
    let feature : Term := .call "F" ⟨[⟨.named "p", [], nested⟩], .parameters⟩ none
    let ctx := ((Context.empty 0 factories).construct .feature (some "A") feature).context
    ctx.Authored ∧ ctx.order = [(.strFn, "0"), (.feature, "A")] ∧
      ∃ n ≤ ctx.counter, ctx.ReproducesAll [] 0 ctx.entries n := by
  intro factories nested feature ctx
  have h : ctx.Authored := by
    have hfeature : feature.isWellFormed = true := by decide
    exact .construct (.empty 0 ((Factories.legible_standard.withFallback _).withFallback _)) _ _
      (Term.parse_render_eq_ok.2 hfeature)
  have horder : ctx.order = [(.strFn, "0"), (.feature, "A")] := by decide +kernel
  have hclone : ((ctx.clone 1).result.map fun made ↦
      (made.entries.map Kept.statement, made.order, made.counter)) =
      .ok (ctx.entries.map Kept.statement, ctx.order, ctx.counter) := by
    rw [h.legible.clone_eq]
    decide +kernel
  clear_value ctx
  obtain ⟨made, hmade, hsame⟩ := map_eq_ok.1 hclone
  obtain ⟨hstatements, hsame⟩ := Prod.mk.inj hsame
  obtain ⟨horder', hcounter⟩ := Prod.mk.inj hsame
  refine ⟨h, horder, (h.clone_faithful_iff 1).1 ⟨made, hmade, ?_, horder', hcounter⟩⟩
  exact congrArg (fun es ↦ (Listing.ofEntries es).render) hstatements

/-- **A clone can fail.** Two definitions stand in a feature, and the second one is made although
the first one is not: an entry that was there at first has everything the first one asks for. When
the feature is built anew, the entry made for the second definition has everything too. -/
theorem Authored.clone_ambiguous :
    let factories := (Factories.standard.withFallback .feature).withFallback .strFn
    let filter (es : List (Entry Term)) : Term :=
      .call "Filter" ⟨⟨.named "type", [], .text "X"⟩ :: es, .parameters⟩ none
    let a := filter [⟨.named "filter", [], .text "a"⟩]
    let b := filter [⟨.named "filter", [], .text "b"⟩]
    let feature : Term :=
      .call "F" ⟨[⟨.named "p1", [], filter []⟩, ⟨.named "p2", [], b⟩], .parameters⟩ none
    let ctx := ((Context.empty 0 factories).construct .strFn (some "e") a).context
    let ctx' := (ctx.construct .feature (some "A") feature).context
    ctx'.Authored ∧ ctx'.order = [(.strFn, "e"), (.strFn, "0"), (.feature, "A")] ∧
      (ctx'.clone 1).result = .error (.ambiguous .strFn ["e", "0"]) := by
  intro factories filter a b feature ctx ctx'
  have h : ctx'.Authored := by
    have ha : a.isWellFormed = true := by decide
    have hfeature : feature.isWellFormed = true := by decide
    have hctx : ctx.Authored :=
      .construct (.empty 0 ((Factories.legible_standard.withFallback _).withFallback _)) _ _
        (Term.parse_render_eq_ok.2 ha)
    exact .construct hctx _ _ (Term.parse_render_eq_ok.2 hfeature)
  have horder : ctx'.order = [(.strFn, "e"), (.strFn, "0"), (.feature, "A")] := by decide +kernel
  refine ⟨h, horder, ?_⟩
  rw [h.legible.clone_eq]
  decide +kernel

end Context

end TermRegistry
