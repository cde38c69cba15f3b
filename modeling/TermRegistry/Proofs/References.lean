import TermRegistry.Proofs.Cloning
import TermRegistry.Proofs.Composition
import TermRegistry.Proofs.Dedup.Resolution
import TermRegistry.Proofs.Matching.Termination

/-!
# Where references lead

A reference is looked up when the definition it stands in is built, and it is kept by its bare name.
Matching looks the name up again, among all namespaces. So a reference may come to lead back to the
entry that it is kept in, in two ways.

* It was never looked up: it stands in a value that is kept as it is written, or in the default of a
  parameter.
* The name is taken over: by now it leads to another entry, in a namespace that comes first, and
  this one mentions references itself.

Apart from these two, references lead to entries declared before, and matching comes to an end
(`Context.references_acyclic`).

**Design.** `Context.Knows` says that all references of a term name entries, and `Context.Ordered`
that those of a stored term name entries declared before. It is carried along courses of
construction, in which the definition that was just built is known, and so is the term of what was
built from it. A definition that was matched instead is known because its references are those of
the entry, or were followed (`Relates.mem_of_references`).
-/

namespace TermRegistry

/-! ### Definitions whose references are looked up -/

/-- Whether no component of a name has a parameter that takes anything. -/
def Factories.isStrict (f : Factories) (name : String) : Bool :=
  Namespace.all.all fun ns ↦ (f.prototypes ns name).all fun p ↦
    match p.blueprint.schema? with
    | some schema => schema.all (·.kind != .anything)
    | none => false

/-- Whether a value is built as a definition where anything may stand. -/
def Factories.builds (f : Factories) (t : Term) : Bool :=
  match t with
  | .call name _ _ => t.composition?.isSome || (f.familyOf name).isOk
  | _ => false

namespace Term

mutual

/-- **Whether a definition mentions no reference that is not looked up** when it is built. -/
def looksUp (f : Factories) : Term → Bool
  | call name ⟨entries, _⟩ _ => entriesLookUp f (f.isStrict name) entries
  | _ => true

/-- Whether the values of some parameters mention no reference that is not looked up. Where anything
may stand, a value that mentions references has to be one, or to be built as a definition. -/
def entriesLookUp (f : Factories) (strict : Bool) : List (Entry Term) → Bool
  | [] => true
  | ⟨_, _, t⟩ :: es =>
    (strict || t.references.isEmpty || t.reference?.isSome || f.builds t) && t.looksUp f &&
      entriesLookUp f strict es

end

theorem entriesLookUp_cons {f : Factories} {strict : Bool} {e : Entry Term}
    {es : List (Entry Term)} : entriesLookUp f strict (e :: es) = true ↔
      (strict = true ∨ e.value.references = [] ∨ e.value.reference?.isSome = true ∨
        f.builds e.value = true) ∧ e.value.looksUp f = true ∧ entriesLookUp f strict es = true := by
  obtain ⟨label, modifiers, t⟩ := e
  simp only [entriesLookUp, Bool.and_eq_true, Bool.or_eq_true, List.isEmpty_iff, or_assoc,
    and_assoc]

end Term

/-! ### What is matched -/

/-- **A reference of a pattern is one of the candidate, or is stored**, or occurs in a stored
term. -/
theorem Relates.mem_of_references {resolve σ : String → Option Term} {p c : Term} {K : Set String}
    (h : Relates resolve σ p c)
    (hstored : ∀ x u, resolve x = some u → x ∈ K ∧ ∀ y ∈ u.references, y ∈ K)
    (hc : ∀ x ∈ c.references, x ∈ K) : ∀ x ∈ p.references, x ∈ K := by
  induction h with
  | capture => exact nofun
  | same => exact hc
  | stored hu =>
    intro x hx
    obtain rfl := List.mem_singleton.1 hx
    exact (hstored x _ hu).1
  | followed _ hu _ ih => exact ih (hstored _ _ hu).2
  | parts hds _ ih =>
    intro x hx
    rcases Term.mem_references_cases hx with rfl | ⟨v, hv, hx⟩
    · cases (Term.isConcrete_of_pairing hds).1
    · rw [← Term.map_fst_pairing hds] at hv
      obtain ⟨d, hd, rfl⟩ := List.mem_map.1 hv
      have hpart := (Term.mem_parts_of_pairing hds hd).2
      exact ih d hd (fun y hy ↦ hc y (Term.mem_references_of_part hpart hy)) x hx

/-! ### What objects mention -/

theorem Term.references_texts (items : List String) : (Term.texts items).references = [] := by
  refine List.eq_nil_iff_forall_not_mem.2 (forall_references_of_parts rfl fun v hv ↦ ?_)
  obtain ⟨s, -, rfl⟩ := List.mem_map.1 hv
  exact fun x hx ↦ nomatch hx

/-- What holds of the references of all parameters holds of those of the component. -/
theorem Component.forall_references_toTerm (c : Component) {P : String → Prop}
    (h : ∀ n v, c.get? n = some v → ∀ x ∈ v.references, P x) : ∀ x ∈ c.toTerm.references, P x := by
  refine Term.forall_references_of_parts rfl fun v hv ↦ ?_
  obtain ⟨e, he, rfl⟩ := List.mem_map.1 hv
  obtain ⟨n, -, v, hget, rfl⟩ := mem_parameters.1 he
  exact h n v hget

namespace Context

variable {ctx ctx' : Context} {ns : Namespace} {name : String} {t : Term} {k : Kept}

theorem exists_matching_of_mem_matched {s : Storage} {pattern : Term} {ks found : List Kept}
    (h : matched s pattern ks = .ok found) :
    ∀ k ∈ found, ∃ b, Term.matching s pattern k.toTerm = .ok (some b) := by
  induction ks generalizing found with
  | nil =>
    cases h
    exact nofun
  | cons k ks ih =>
    obtain ⟨outcome, houtcome, h⟩ := bind_eq_ok.1 h
    obtain ⟨rest, hrest, h⟩ := bind_eq_ok.1 h
    have hfound : found = if outcome.isSome then k :: rest else rest := (Except.ok.inj h).symm
    rw [hfound]
    cases outcome with
    | none => exact ih hrest
    | some b => exact List.forall_mem_cons.2 ⟨⟨b, houtcome⟩, ih hrest⟩

/-- What a definition matches is related to it. -/
theorem exists_relates_of_singleMatch (h : ctx.singleMatch ns t = .ok (some k)) :
    ∃ σ, Relates ctx.storage.resolve σ t k.toTerm := by
  obtain ⟨found, hfound, h⟩ := bind_eq_ok.1 h
  have hmatching := exists_matching_of_mem_matched hfound
  have hk : k ∈ found := by
    split at h
    · cases h
    · cases h
      exact List.mem_cons_self
    · split at h
      · next k' hk' =>
        cases h
        exact (List.mem_filter.1 (hk' ▸ List.mem_cons_self)).1
      · cases h
  obtain ⟨b, hb⟩ := hmatching k hk
  exact Term.exists_relates_of_matching hb

/-! ### Terms whose references name entries -/

/-- **A context knows a term** if every reference in it names an entry. -/
def Knows (ctx : Context) (t : Term) : Prop := ∀ x ∈ t.references, ∃ ns, (ns, x) ∈ ctx.order

theorem Knows.grows {js : List (Namespace × String)} (h : ctx.Knows t)
    (hgrows : ctx.Grows js ctx') : ctx'.Knows t := by
  intro x hx
  obtain ⟨ns, hmem⟩ := h x hx
  rw [hgrows.order_eq]
  exact ⟨ns, List.mem_append_left js hmem⟩

theorem knows_of_nil (h : t.references = []) : ctx.Knows t := by
  intro x hx
  rw [h] at hx
  cases hx

/-- A term whose parts are known is known. -/
theorem knows_of_parts (ht : t.reference? = none) (h : ∀ v ∈ t.parts, ctx.Knows v) :
    ctx.Knows t :=
  Term.forall_references_of_parts ht h

theorem knows_reference (hc : ctx.Coherent) (h : ctx.find? ns name = some k) :
    ctx.Knows (.reference name) := by
  intro x hx
  obtain rfl := List.mem_singleton.1 hx
  exact ⟨ns, hc.mem_order_iff_exists.2 ⟨k, h⟩⟩

theorem knows_texts (ctx : Context) (items : List String) : ctx.Knows (.texts items) :=
  knows_of_nil (Term.references_texts items)

theorem knows_of_textOf (hc : ctx.Coherent) {s : String} (h : ctx.textOf t = .ok s) :
    ctx.Knows t := by
  cases t with
  | text => exact knows_of_nil rfl
  | reference name =>
    rw [textOf] at h
    cases hk : ctx.find? .value name with
    | none => rw [hk] at h; cases h
    | some k => exact knows_reference hc hk
  | _ => cases h

theorem knows_of_textsOf (hc : ctx.Coherent) {items : List String}
    (h : ctx.textsOf t = .ok items) : ctx.Knows t := by
  cases t with
  | array ts =>
    rw [itemTexts_eq_ok h]
    exact knows_texts ctx items
  | reference name =>
    rw [textsOf] at h
    cases hk : ctx.find? .array name with
    | none => rw [hk] at h; cases h
    | some k => exact knows_reference hc hk
  | _ => cases h

theorem knows_of_ruleSet {s : RuleSet} (h : RuleSet.ofTerm t = .ok s) : ctx.Knows t := by
  have hpairing := RuleSet.pairing_toTerm h s
  have hparts : [] = t.parts := Term.map_fst_pairing hpairing
  refine knows_of_parts
    (Term.reference?_of_isConcrete (Term.isConcrete_of_pairing hpairing).1) ?_
  rw [← hparts]
  exact nofun

/-- A component shows what its parameters answer with. -/
theorem knows_component {c : Component} (h : ∀ n v, c.get? n = some v → ctx.Knows v) :
    ctx.Knows c.toTerm :=
  c.forall_references_toTerm h

/-- A call that is no composition belongs where its name is registered. -/
theorem inferFamily_call {l : Listing Term} {internal : Option (List (Entry Term))}
    (h : (Term.call name l internal).composition? = none) :
    ctx.inferFamily (.call name l internal) = ctx.factories.familyOf name := by
  rw [inferFamily.eq_def]
  split
  · next heq => cases heq
  · next n l₁ ms₁ f l₂ ms₂ g form _ heq =>
    cases heq
    rw [if_neg]
    intro hcomposite
    rw [Term.composition?, if_pos hcomposite] at h
    cases h
  · next heq =>
    cases heq
    rfl
  · next hcall => exact absurd rfl (hcall name l internal)

/-- A value that is built as a definition is not settled: a composition has a namespace or is an
error. -/
theorem exists_definition_of_builds {shape : Shape} (h : ctx.shapeOf t = .ok shape)
    (ht : ctx.factories.builds t = true) : ∃ ns, shape = .definition ns := by
  cases t with
  | call name parameters internal =>
    rw [shapeOf] at h
    cases hfamily : ctx.inferFamily (.call name parameters internal) with
    | ok ns =>
      rw [hfamily] at h
      exact ⟨ns, (Except.ok.inj h).symm⟩
    | error e =>
      rw [hfamily] at h
      cases hcomposition : (Term.call name parameters internal).composition? with
      | none =>
        rw [Factories.builds, hcomposition, Option.isSome_none, Bool.false_or] at ht
        obtain ⟨ns, hns⟩ := exists_eq_ok ht
        rw [inferFamily_call hcomposition, hns] at hfamily
        cases hfamily
      | some fg =>
        rw [hcomposition] at h
        cases h
  | _ => cases ht

/-- What is resolved where anything may stand is known, unless it is kept as it is written. -/
theorem knows_of_settled (hc : ctx.Coherent) {r : Resolved} (h : ctx.shapeOf t = .ok (.settled r))
    (ht : t.references = [] ∨ t.reference?.isSome = true ∨ ctx.factories.builds t = true) :
    ctx.Knows t := by
  rcases ht with ht | ht | ht
  · exact knows_of_nil ht
  · cases t with
    | reference name =>
      rw [shapeOf] at h
      split at h
      · next k hk =>
        obtain ⟨ns, -, hfound⟩ := List.exists_of_findSome?_eq_some hk
        exact knows_reference hc hfound
      · cases h
    | _ => cases ht
  · obtain ⟨ns, hshape⟩ := exists_definition_of_builds h ht
    cases hshape

/-! ### The invariant -/

/-- What comes before something is the place of an entry. -/
theorem Precedes.exists_entry {p q : Namespace × String} (h : ctx.Precedes p q)
    (hc : ctx.Coherent) : ∃ l ∈ ctx.entries, l.place = p := by
  have hp := h.mem_order
  rw [← hc.map_place_entries] at hp
  exact List.mem_map.1 hp

/-- **Ordered contexts**: the references of every stored term name entries declared before. -/
def Ordered (ctx : Context) : Prop :=
  ∀ ns name k, ctx.find? ns name = some k → ∀ x ∈ k.toTerm.references,
    ∃ ns', ctx.Precedes (ns', x) (ns, name)

namespace Ordered

theorem empty (home : Nat) (factories : Factories) : (empty home factories).Ordered := by
  intro ns name k hk
  rw [find?_empty] at hk
  cases hk

theorem raised (h : ctx.Ordered) (hr : ctx.Raised ctx') : ctx'.Ordered := by
  intro ns name k hk x hx
  rw [hr.find?_eq] at hk
  obtain ⟨ns', hprecedes⟩ := h ns name k hk x hx
  exact ⟨ns', hprecedes.raised hr⟩

/-- **Keeping an object whose term is known preserves the order.** -/
theorem keep (h : ctx.Ordered) {x : Content} (hfree : ctx.contains ns name = false)
    (hx : ctx.Knows x.toTerm) : (ctx.keep ns name x).2.Ordered := by
  intro ns' n k hk y hy
  rw [find?_keep hfree] at hk
  split at hk
  · next hplace =>
    obtain ⟨rfl, rfl⟩ := hplace
    cases hk
    obtain ⟨ns', hmem⟩ := hx y hy
    exact ⟨ns', precedes_keep hfree hmem⟩
  · obtain ⟨ns'', hprecedes⟩ := h ns' n k hk y hy
    exact ⟨ns'', hprecedes.keep hfree⟩

/-- The terms of entries are known. -/
theorem knows (h : ctx.Ordered) (hk : ctx.find? ns name = some k) : ctx.Knows k.toTerm := by
  intro x hx
  obtain ⟨ns', hprecedes⟩ := h ns name k hk x hx
  exact ⟨ns', hprecedes.mem_order⟩

/-- **What matches an entry is known.** -/
theorem knows_of_singleMatch (h : ctx.Ordered) (hc : ctx.Coherent)
    (hk : ctx.singleMatch ns t = .ok (some k)) : ctx.Knows t := by
  obtain ⟨σ, hrelates⟩ := exists_relates_of_singleMatch hk
  have hfound := (find?_of_mem_inNamespace (mem_of_singleMatch hk)).2
  refine hrelates.mem_of_references (K := {x | ∃ ns, (ns, x) ∈ ctx.order}) (fun x u hu ↦ ?_)
    (h.knows hfound)
  rw [storage_resolve hc] at hu
  obtain ⟨l, hl, rfl⟩ := Option.map_eq_some_iff.1 hu
  obtain ⟨ns', -, hfound'⟩ := List.exists_of_findSome?_eq_some hl
  exact ⟨⟨ns', hc.mem_order_iff_exists.2 ⟨l, hfound'⟩⟩, h.knows hfound'⟩

end Ordered

end Context

/-! ### Prototypes -/

namespace Factories

variable {f : Factories} {ns : Namespace} {name n : String} {p : Prototype}

/-- Whether no default of a parameter mentions a reference. -/
def PlainDefaults (f : Factories) : Prop :=
  ∀ p ∈ f.registered, ∀ q ∈ p.blueprint.schema?.getD [], ∀ v, q.default? = some v →
    v.references = []

/-- What a fresh component answers with is a default. -/
theorem exists_default (hp : p ∈ f.prototypes ns name) {v : Term}
    (hv : p.instantiate.get? n = some v) :
    ∃ p ∈ f.registered, ∃ q ∈ p.blueprint.schema?.getD [], q.default? = some v := by
  obtain ⟨q, hq, hdefault⟩ := Option.bind_eq_some_iff.1 hv
  obtain ⟨schema, hschema, hq⟩ := Option.bind_eq_some_iff.1 hq
  have hmem : p ∈ f.registered := by
    rw [prototypes] at hp
    split at hp
    · split at hp
      · obtain rfl := List.mem_singleton.1 hp
        cases hschema
      · cases hp
    · exact (List.mem_filter.1 hp).1
  have hblueprint : p.blueprint.schema? = some schema := hschema
  refine ⟨p, hmem, q, ?_, hdefault⟩
  rw [hblueprint]
  exact List.mem_of_find?_eq_some hq

/-- What a fresh component answers with mentions no reference. -/
theorem PlainDefaults.references_eq_nil (h : f.PlainDefaults) (hp : p ∈ f.prototypes ns name)
    {v : Term} (hv : p.instantiate.get? n = some v) : v.references = [] := by
  obtain ⟨p, hmem, q, hq, hdefault⟩ := exists_default hp hv
  exact h p hmem q hq v hdefault

/-- No parameter of a strict component takes anything. -/
theorem kind?_ne_anything (h : f.isStrict name = true) (hp : p ∈ f.prototypes ns name) :
    p.instantiate.kind? n ≠ some .anything := by
  have hp' := List.all_eq_true.1 (List.all_eq_true.1 h ns ns.mem_all) p hp
  intro hkind
  split at hp'
  · next schema hschema =>
    have hinstantiate : p.instantiate.schema? = some schema := hschema
    rw [Component.kind?, Component.declared?, hinstantiate] at hkind
    obtain ⟨q, hq, hq'⟩ := Option.map_eq_some_iff.1 hkind
    have hne := List.all_eq_true.1 hp' q (List.mem_of_find?_eq_some hq)
    rw [hq'] at hne
    cases hne
  · cases hp'

end Factories

/-! ### Courses of construction -/

/-- Setting a parameter changes what is answered for it, and nothing else. -/
theorem Component.get?_set {c c' : Component} {name : String} {a : Argument}
    (h : c.set name a = .ok c') (n : String) :
    c'.get? n = if n = name then some a.written else c.get? n := by
  rw [get?, argument?_set h]
  obtain ⟨-, rfl⟩ := eq_of_set h
  by_cases hn : n = name
  · rw [if_pos hn, if_pos hn]
  · rw [if_neg hn, if_neg hn]
    rfl

/-- The kind that a value is read as is the one of its parameter. -/
theorem Build.kind?_of_parameterKind {generic name : String} {c : Component} {kind : ParameterKind}
    (h : parameterKind generic c name = .ok kind) : c.kind? name = some kind := by
  rw [parameterKind] at h
  split at h
  · next hkind =>
    cases h
    exact hkind
  · cases h

/-- Whether a construction starts from a definition whose references are looked up, or on its way
from a component whose term is known. -/
def Built.LooksUp (f : Factories) (ctx : Context) : Built → Prop
  | .new _ _ t _ | .entry t _ _ | .content t _ _ => t.looksUp f = true
  | .parameters _ _ _ es c _ => ∃ strict, Term.entriesLookUp f strict es = true ∧
      (strict = true → ∀ n, c.kind? n ≠ some .anything) ∧ ∀ n v, c.get? n = some v → ctx.Knows v
  | .argument t kind _ => t.looksUp f = true ∧
      (kind = .anything → t.references = [] ∨ t.reference?.isSome = true ∨ f.builds t = true)

/-- Whether the definition that a construction was for is known, and what was made of it. -/
def Built.Known (ctx : Context) : Built → Prop
  | .new .. => True
  | .entry t _ _ | .argument t _ _ => ctx.Knows t
  | .content t _ x => ctx.Knows t ∧ ctx.Knows x.toTerm
  | .parameters _ _ _ es _ c =>
      (∀ e ∈ es, ctx.Knows e.value) ∧ ∀ n v, c.get? n = some v → ctx.Knows v

/-- **Courses of construction keep contexts ordered**, if all references are looked up in them, and
then they know what they are for. -/
theorem Builds.ordered {ctx ctx' : Context} {b : Built} (h : Builds ctx b ctx') {f : Factories}
    (hf : f.PlainDefaults) (hfactories : ctx.factories = f) (hc : ctx.Coherent)
    (hctx : ctx.Ordered) (hb : b.LooksUp f ctx) : ctx'.Ordered ∧ b.Known ctx' := by
  induction h with
  | @named _ ctx' _ _ _ _ _ hx hfree ih =>
    obtain ⟨hctx', -, hknows⟩ := ih hfactories hc hctx hb
    exact ⟨hctx'.keep hfree hknows, trivial⟩
  | @numbered ctx _ ns _ _ hx hfree ih =>
    have hraised := Context.Raised.mint ctx ns
    obtain ⟨hctx', -, hknows⟩ := ih hfactories (hraised.coherent hc) (hctx.raised hraised) hb
    exact ⟨hctx'.keep hfree hknows, trivial⟩
  | referred h => exact ⟨hctx, Context.knows_reference hc h⟩
  | matched _ h => exact ⟨hctx, hctx.knows_of_singleMatch hc h⟩
  | @matchedLater ctx _ _ ns _ _ _ _ _ _ ih =>
    have hraised := Context.Raised.mint ctx ns
    obtain ⟨hctx', hknows, -⟩ := ih hfactories (hraised.coherent hc) (hctx.raised hraised) hb
    exact ⟨hctx', hknows⟩
  | @made ctx _ _ ns _ _ _ hx _ hfree ih =>
    have hraised := Context.Raised.mint ctx ns
    obtain ⟨hctx', hknows, hknows'⟩ := ih hfactories (hraised.coherent hc) (hctx.raised hraised) hb
    exact ⟨hctx'.keep hfree hknows',
      hknows.grows (.kept (.refl _) hfree hx.suits (.refl _))⟩
  | array h => exact ⟨hctx, Context.knows_of_textsOf hc h, Context.knows_texts _ _⟩
  | value h => exact ⟨hctx, Context.knows_of_textOf hc h, Context.knows_of_nil rfl⟩
  | ruleSet h => exact ⟨hctx, Context.knows_of_ruleSet h, Context.knows_of_nil rfl⟩
  | @component ctx ctx' ctx'' ns name parameters internal p c _ _ hp hraised _ ih =>
    obtain ⟨es, form⟩ := parameters
    rw [hfactories] at hp
    obtain ⟨hctx', hes, hgets⟩ := ih (hraised.factories_eq.trans hfactories)
      (hraised.coherent hc) (hctx.raised hraised) ⟨f.isStrict name, hb, fun hstrict n ↦
        Factories.kind?_ne_anything hstrict hp, fun n v hv ↦
          Context.knows_of_nil (hf.references_eq_nil hp hv)⟩
    refine ⟨hctx', Context.knows_of_parts rfl fun v hv ↦ ?_, ?_⟩
    · obtain ⟨e, he, rfl⟩ := List.mem_map.1 hv
      exact hes e he
    -- The internal listing is no part of the term that matching looks at.
    · refine Context.knows_component fun n v hv ↦ hgets n v ?_
      cases internal with
      | none => exact hv
      | some _ => exact hv
  | noParameters =>
    obtain ⟨-, -, -, hgets⟩ := hb
    exact ⟨hctx, nofun, hgets⟩
  | @parameter _ ctx₁ _ _ _ _ e es c c' _ name kind r _ hkind hr hset h ihr ih =>
    obtain ⟨strict, hlooks, hkinds, hgets⟩ := hb
    obtain ⟨hvalue, ht, hrest⟩ := Term.entriesLookUp_cons.1 hlooks
    obtain ⟨js, hgrows⟩ := hr.grows
    -- Where anything may stand, the component is not strict, and the value is looked up itself.
    have hanything : kind = .anything → e.value.references = [] ∨
        e.value.reference?.isSome = true ∨ f.builds e.value = true := by
      rintro rfl
      exact hvalue.resolve_left fun hstrict ↦
        hkinds hstrict name (Build.kind?_of_parameterKind hkind)
    obtain ⟨hctx₁, hknows⟩ := ihr hfactories hc hctx ⟨ht, hanything⟩
    have hkinds' : strict = true → ∀ n, c'.kind? n ≠ some .anything := by
      intro hstrict n
      rw [Component.kind?_set hset]
      exact hkinds hstrict n
    have hgets₁ : ∀ n v, c'.get? n = some v → ctx₁.Knows v := by
      intro n v hv
      rw [Component.get?_set hset] at hv
      split at hv
      · cases hv
        exact hknows
      · exact (hgets n v hv).grows hgrows
    obtain ⟨hctx', hes, hgets'⟩ := ih (hgrows.factories_eq.trans hfactories) (hgrows.coherent hc)
      hctx₁ ⟨strict, hrest, hkinds', hgets₁⟩
    obtain ⟨ks, hgrows'⟩ := h.grows
    exact ⟨hctx', List.forall_mem_cons.2 ⟨hknows.grows hgrows', hes⟩, hgets'⟩
  | text h => exact ⟨hctx, Context.knows_of_textOf hc h⟩
  | texts h => exact ⟨hctx, Context.knows_of_textsOf hc h⟩
  | settled h =>
    exact ⟨hctx, Context.knows_of_settled hc h (hfactories ▸ hb.2 rfl)⟩
  | entry _ ih | function _ _ ih | definition _ _ ih => exact ih hfactories hc hctx hb.1

namespace Context

variable {ctx : Context}

/-- **Building from definitions whose references are looked up keeps contexts ordered.** -/
theorem preserved_ordered {f : Factories} (hf : f.PlainDefaults) :
    Preserved (·.looksUp f = true) fun ctx ↦ ctx.factories = f ∧ ctx.Ordered where
  raised h hr := ⟨hr.factories_eq.trans h.1, h.2.raised hr⟩
  new hc h ht hb := by
    obtain ⟨js, hgrows⟩ := hb.grows
    exact ⟨hgrows.factories_eq.trans h.1, (hb.ordered hf h.1 hc h.2 ht).1⟩
  entry hc h ht hb := by
    obtain ⟨js, hgrows⟩ := hb.grows
    exact ⟨hgrows.factories_eq.trans h.1, (hb.ordered hf h.1 hc h.2 ht).1⟩

/-! ### Names that are not taken over -/

/-- **No name is taken over**: an entry that a bare name stands for and whose term mentions
references is the first one that was declared under the name. -/
def FirstCome (ctx : Context) : Prop :=
  ∀ k ∈ ctx.entries, ctx.lookup? k.name = some k → k.toTerm.references ≠ [] →
    ∀ l ∈ ctx.entries, l.name = k.name → ctx.order.idxOf k.place ≤ ctx.order.idxOf l.place

instance (ctx : Context) : Decidable ctx.FirstCome :=
  inferInstanceAs (Decidable (∀ k ∈ ctx.entries, _ → _ → ∀ l ∈ ctx.entries, _ → _))

theorem name_of_lookup? {x : String} {k : Kept} (h : ctx.lookup? x = some k) : k.name = x := by
  obtain ⟨ns, -, hk⟩ := List.exists_of_findSome?_eq_some h
  exact (Registry.place_of_find? hk).2

/-- Where the entry that a bare name stands for was declared, if its term mentions references. -/
def rank (ctx : Context) (x : String) : Nat :=
  match ctx.lookup? x with
  | some k => if k.toTerm.references = [] then 0 else ctx.order.idxOf k.place + 1
  | none => 0

/-- **References do not lead back** in an ordered context in which no name is taken over. -/
theorem Ordered.acyclic (h : ctx.Ordered) (hc : ctx.Coherent) (hfirst : ctx.FirstCome) :
    ctx.storage.Acyclic := by
  refine .of_mentions ctx.rank fun x y hxy ↦ ?_
  obtain ⟨u, hu, hy⟩ := hxy
  rw [storage_resolve hc] at hu
  obtain ⟨k, hk, rfl⟩ := Option.map_eq_some_iff.1 hu
  have hx : ctx.rank x = ctx.order.idxOf k.place + 1 := by
    have hne : k.toTerm.references ≠ [] := List.ne_nil_of_mem hy
    rw [rank, hk]
    exact if_neg hne
  obtain ⟨ns, hprecedes⟩ := h k.ns k.name k (find?_of_lookup? hk) y hy
  have hlt := hprecedes.idxOf_lt hc
  rw [hx, rank]
  cases hl : ctx.lookup? y with
  | none => exact Nat.succ_pos _
  | some l =>
    dsimp only
    split
    · exact Nat.succ_pos _
    · next hne =>
      -- The name stands for the entry that was declared first under it.
      obtain ⟨m, hm, hplace⟩ := hprecedes.exists_entry hc
      obtain rfl := name_of_lookup? hl
      have hle := hfirst l (mem_entries_of_find? hc (find?_of_lookup? hl)) hl hne m hm
        (congrArg Prod.snd hplace)
      rw [hplace] at hle
      show ctx.order.idxOf l.place + 1 < ctx.order.idxOf k.place + 1
      exact Nat.succ_lt_succ (Nat.lt_of_le_of_lt hle hlt)

/-- **References lead to what was declared before.** Take a run from an empty context in which no
default of a parameter mentions a reference, and every definition has all its references looked up
when it is built. Then each reference of a stored term bears the name of an entry that was declared
before the entry of the term. If moreover no name was taken over, by an entry whose term mentions
references, from one that was declared before, then no name leads back to itself, and no match comes
to no end. -/
theorem references_acyclic (home : Nat) (factories : Factories)
    (hdefaults : factories.PlainDefaults) (ops : List Operation)
    (hops : ∀ op ∈ ops, op.From (·.looksUp factories = true)) :
    let ctx := (empty home factories).run ops
    (∀ k ∈ ctx.entries, ∀ x ∈ k.toTerm.references, ∃ l ∈ ctx.entries, l.name = x ∧
      ctx.order.idxOf l.place < ctx.order.idxOf k.place) ∧
    (ctx.FirstCome → ctx.storage.Acyclic ∧
      ∀ p c, Term.matching ctx.storage p c ≠ .error .circular) := by
  intro ctx
  have hempty := coherent_empty home factories
  obtain ⟨js, hgrows⟩ := run_grows ops hempty
  have hc : ctx.Coherent := hgrows.coherent hempty
  have hordered : ctx.Ordered :=
    ((preserved_ordered hdefaults).runFrom hempty ⟨rfl, .empty home factories⟩ hops).2
  clear_value ctx
  refine ⟨fun k hk x hx ↦ ?_, fun hfirst ↦ ?_⟩
  · obtain ⟨ns, hprecedes⟩ := hordered k.ns k.name k (find?_of_mem_entries hk) x hx
    obtain ⟨l, hl, hplace⟩ := hprecedes.exists_entry hc
    refine ⟨l, hl, congrArg Prod.snd hplace, ?_⟩
    rw [hplace]
    exact hprecedes.idxOf_lt hc
  · have hacyclic := hordered.acyclic hc hfirst
    exact ⟨hacyclic, Term.matching_ne_circular hacyclic⟩

/-- A feature refers to a value, and has a function inside that does so too. -/
theorem references_acyclic_nested :
    let v : Entry Term := ⟨.named "p", [], .reference "v"⟩
    let w : Entry Term := ⟨.named "w", [], .call "G" ⟨[v], .parameters⟩ none⟩
    let ctx := (empty 0 ⟨[], [.feature, .strFn]⟩).run
      [.construct .value (some "v") (.text "1"),
        .construct .feature (some "x") (.call "F" ⟨[v, w], .parameters⟩ none)]
    ctx.order = [(.value, "v"), (.strFn, "0"), (.feature, "x")] ∧ ctx.storage.Acyclic ∧
      ∀ p c, Term.matching ctx.storage p c ≠ .error .circular := by
  intro v w ctx
  have hlooks : Term.looksUp ⟨[], [.feature, .strFn]⟩ (.call "F" ⟨[v, w], .parameters⟩ none) =
      true := by
    decide +kernel
  have hops : ∀ op ∈ [Operation.construct .value (some "v") (.text "1"),
      .construct .feature (some "x") (.call "F" ⟨[v, w], .parameters⟩ none)],
      op.From (·.looksUp ⟨[], [.feature, .strFn]⟩ = true) :=
    List.forall_mem_cons.2 ⟨rfl, List.forall_mem_singleton.2 hlooks⟩
  have horder : ctx.order = [(.value, "v"), (.strFn, "0"), (.feature, "x")] := by decide +kernel
  have hfirst : ctx.FirstCome := by decide +kernel
  exact ⟨horder, (references_acyclic 0 ⟨[], [.feature, .strFn]⟩ nofun _ hops).2 hfirst⟩

/-- **References may lead back**: a feature takes over the name of a model that another feature
refers to, and refers to that feature; and a feature is mentioned in an array of its own, where no
reference is looked up. -/
theorem references_cyclic :
    (let p (x : String) : Term := .call "F" ⟨[⟨.named "p", [], .reference x⟩], .parameters⟩ none
     let ctx := (empty 0 ⟨[], [.feature, .model]⟩).run
       [.construct .model (some "y") (.call "M" {} none), .construct .feature (some "x") (p "y"),
         .construct .feature (some "y") (p "x")]
     ¬ ctx.storage.Acyclic ∧
       Term.matching ctx.storage (.reference "x") (.reference "y") = .error .circular) ∧
    (let t : Term := .call "F" ⟨[⟨.named "p", [], .array [.reference "A"]⟩], .parameters⟩ none
     let ctx := (empty 0 ⟨[], [.feature]⟩).run [.construct .feature (some "A") t]
     ¬ ctx.storage.Acyclic) := by
  constructor
  · intro p ctx
    have hx : ctx.storage.resolve "x" = some (p "y") := by decide +kernel
    have hy : ctx.storage.resolve "y" = some (p "x") := by decide +kernel
    have hcircular : Term.matching ctx.storage (.reference "x") (.reference "y") =
        .error .circular := by
      decide +kernel
    have hxy : Mentions ctx.storage.resolve "x" "y" := ⟨p "y", hx, by decide⟩
    have hyx : Mentions ctx.storage.resolve "y" "x" := ⟨p "x", hy, by decide⟩
    exact ⟨fun h ↦ h "x" (.tail (.single hxy) hyx), hcircular⟩
  · intro t ctx
    have hA : ctx.storage.resolve "A" = some t := by decide +kernel
    exact fun h ↦ h "A" (.single ⟨t, hA, by decide⟩)

end Context

end TermRegistry
