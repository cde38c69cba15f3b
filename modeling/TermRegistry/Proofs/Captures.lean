import TermRegistry.Proofs.References

/-!
# Where captures stand

A capture means something in the source of a rule only. Where a construction comes across one as
the value of a parameter, it refuses it: a capture is no text, no array and no function, and where
anything may stand it is said to be misplaced. But the construction looks at the values of
parameters alone, one call at a time, and so it overlooks the captures

* in what is kept as it is written: in arrays, listings and rules where anything may stand, and in
  calls of functions that no factory knows;
* in internal listings;
* in definitions that match an entry, since a capture in them is matched with what stands there;
* that stand for a definition themselves, which every entry of the namespace matches.

**Design.** `Term.inSight` says of a definition that no capture of it is overlooked. Whether a
definition inside it matches an entry depends on the context; it cannot when no entry bears its
name, so `inSight` is given the names that are borne. `Builds.captures` carries two things along the
courses of construction: what was built in sight had no capture, and what is stored outside of rule
sets has none. A definition with a capture is therefore refused (`Context.captures_kept_out`).
-/

namespace TermRegistry

/-! ### Captures that are not overlooked -/

/-- The kind of a parameter of a call in components of a prototype, if they have it. -/
def Prototype.kindAt? (p : Prototype) (generic : String) (index : Nat) (label : Label) :
    Option ParameterKind :=
  match Build.parameterName generic p.instantiate.names index label with
  | .ok name => p.instantiate.kind? name
  | .error _ => none

/-- The kinds that a parameter of a call may be of, whatever component it is a parameter of. -/
def Factories.kindsAt (f : Factories) (generic : String) (index : Nat) (label : Label) :
    List ParameterKind :=
  Namespace.all.flatMap fun ns ↦
    (f.prototypes ns generic).filterMap (·.kindAt? generic index label)

/-- **Whether a value with a capture is looked into** where it is to be of a kind: it is refused as
it stands there, or it is built as a definition, and by a name that is not borne. -/
def ParameterKind.looksInto (f : Factories) (borne : String → Bool) : ParameterKind → Term → Bool
  | text, _ | array, _ => true
  | entry _, .call name _ _ | anyFunction, .call name _ _ => !borne name
  | entry _, _ => false
  | anyFunction, _ | anything, .capture _ => true
  | anything, .call name parameters internal =>
    !borne name && f.builds (.call name parameters internal)
  | anything, _ => false

namespace Term

mutual

/-- **Whether all captures of a definition are in sight** when it is built, where the entries that
there are bear no other names than those given. -/
def inSight (f : Factories) (borne : String → Bool) : Term → Bool
  | call name ⟨entries, _⟩ internal =>
    !anyEntryCapture (internal.getD []) && entriesInSight f borne name 0 entries
  | _ => true

/-- Whether all captures of some parameters of a call are in sight, from a position on. -/
def entriesInSight (f : Factories) (borne : String → Bool) (generic : String) (index : Nat) :
    List (Entry Term) → Bool
  | [] => true
  | ⟨label, _, t⟩ :: es =>
    (!t.hasCapture || (f.kindsAt generic index label).all (·.looksInto f borne t)) &&
      t.inSight f borne && entriesInSight f borne generic (index + 1) es

end

variable {f : Factories} {borne : String → Bool}

/-- Parameters are in sight one by one. -/
theorem entriesInSight_cons {generic : String} {index : Nat} {e : Entry Term}
    {es : List (Entry Term)} : entriesInSight f borne generic index (e :: es) = true ↔
      (e.value.hasCapture = true → ∀ kind ∈ f.kindsAt generic index e.label,
        kind.looksInto f borne e.value = true) ∧
      e.value.inSight f borne = true ∧ entriesInSight f borne generic (index + 1) es = true := by
  obtain ⟨label, modifiers, t⟩ := e
  simp only [entriesInSight, Bool.and_eq_true, Bool.or_eq_true, Bool.not_eq_true', List.all_eq_true,
    and_assoc]
  cases t.hasCapture <;> simp

/-- A call has the captures of its parameters and of its internal listing. -/
theorem hasCapture_call (name : String) (l : Listing Term) (internal : Option (List (Entry Term))) :
    (call name l internal).hasCapture =
      (anyEntryCapture l.entries || anyEntryCapture (internal.getD [])) := by
  cases internal with
  | none => exact (Bool.or_false _).symm
  | some internal => rfl

/-- Texts have no captures. -/
theorem hasCapture_texts (items : List String) : (texts items).hasCapture = false := by
  rw [texts, hasCapture, anyCapture_eq, List.any_map, List.any_eq_false]
  intro s _
  exact Bool.false_ne_true

end Term

/-! ### What is stored -/

/-- Factories without captures in the defaults of parameters. -/
def Factories.CaptureFree (f : Factories) : Prop :=
  ∀ p ∈ f.registered, ∀ q ∈ p.blueprint.schema?.getD [], ∀ v, q.default? = some v →
    v.hasCapture = false

/-- **Components without captures** in what their parameters answer with, and in their internal
listing. -/
structure Component.CaptureFree (c : Component) : Prop where
  parameters : ∀ n v, c.get? n = some v → v.hasCapture = false
  internal : Term.anyEntryCapture (c.internal?.getD []) = false

namespace Component.CaptureFree

variable {c c' : Component}

/-- The term of a component without captures has none. -/
theorem toTerm (h : c.CaptureFree) : c.toTerm.hasCapture = false := by
  rw [toTerm_eq, Term.hasCapture_call, h.internal, Bool.or_false, Term.anyEntryCapture_eq,
    List.any_eq_false]
  intro e he
  obtain ⟨n, -, v, hv, rfl⟩ := mem_parameters.1 he
  exact Bool.eq_false_iff.1 (h.parameters n v hv)

/-- Setting a parameter to a value without captures adds none. -/
theorem set (h : c.CaptureFree) {name : String} {a : Argument} (hset : c.set name a = .ok c')
    (ha : a.written.hasCapture = false) : c'.CaptureFree where
  parameters n v hv := by
    rw [get?_set hset] at hv
    split at hv
    · cases hv
      exact ha
    · exact h.parameters n v hv
  internal := by
    rw [(eq_of_set hset).2]
    exact h.internal

/-- Nor does an internal listing without captures. -/
theorem withInternal (h : c.CaptureFree) {internal : Option (List (Entry Term))}
    (hinternal : Term.anyEntryCapture (internal.getD []) = false) :
    (c.withInternal internal).CaptureFree := by
  cases internal with
  | none => exact h
  | some _ => exact ⟨h.parameters, hinternal⟩

end Component.CaptureFree

/-- Fresh components have no captures if the defaults have none. -/
theorem Factories.CaptureFree.instantiate {f : Factories} (h : f.CaptureFree) {ns : Namespace}
    {name : String} {p : Prototype} (hp : p ∈ f.prototypes ns name) :
    p.instantiate.CaptureFree where
  parameters n v hv := by
    obtain ⟨p, hmem, q, hq, hdefault⟩ := exists_default hp hv
    exact h p hmem q hq v hdefault
  internal := rfl

namespace Context

variable {ctx ctx' : Context} {ns : Namespace} {name : String} {t : Term} {k : Kept}
  {f : Factories} {borne : String → Bool}

/-- **Contexts without captures** in what is stored outside of rule sets. -/
def CaptureFree (ctx : Context) : Prop :=
  ∀ ns name k, ctx.find? ns name = some k → ns ≠ .ruleSet → k.toTerm.hasCapture = false

/-- Whether the term of an entry is a call by a name. -/
def bears (ctx : Context) (name : String) : Bool :=
  ctx.entries.any (·.toTerm.callName? == some name)

/-- No entry bears another name than those given. -/
def BearsOnly (ctx : Context) (borne : String → Bool) : Prop :=
  ∀ ns name k, ctx.find? ns name = some k → ∀ n, k.toTerm.callName? = some n → borne n = true

/-- The names that are borne are those of entries. -/
theorem Coherent.bearsOnly (hc : ctx.Coherent) : ctx.BearsOnly ctx.bears := fun _ _ k hk _ hn ↦
  List.any_eq_true.2 ⟨k, mem_entries_of_find? hc hk, beq_iff_eq.2 hn⟩

/-- What is borne before is borne afterwards. -/
theorem BearsOnly.of_grows {js : List (Namespace × String)} (h : ctx'.BearsOnly borne)
    (hgrows : ctx.Grows js ctx') : ctx.BearsOnly borne := fun ns name k hk ↦
  h ns name k (hgrows.find?_eq hk)

namespace CaptureFree

/-- Nothing is stored in an empty context. -/
theorem empty (home : Nat) (factories : Factories) : (empty home factories).CaptureFree := by
  intro ns name k hk
  rw [find?_empty] at hk
  cases hk

/-- Raising a context stores nothing. -/
theorem raised (h : ctx.CaptureFree) (hr : ctx.Raised ctx') : ctx'.CaptureFree := by
  intro ns name k hk
  rw [hr.find?_eq] at hk
  exact h ns name k hk

/-- **Keeping what has no captures**, or keeping it in a rule set, leaves the context free of
them. -/
theorem keep (h : ctx.CaptureFree) {x : Content} (hfree : ctx.contains ns name = false)
    (hx : ns ≠ .ruleSet → x.toTerm.hasCapture = false) : (ctx.keep ns name x).2.CaptureFree := by
  intro ns' n k hk hns
  rw [find?_keep hfree] at hk
  split at hk
  · next hplace =>
    cases hk
    exact hx (hplace.1 ▸ hns)
  · exact h ns' n k hk hns

end CaptureFree

/-! ### Where captures are refused -/

/-- What is read as a text is a text or a reference. -/
theorem hasCapture_of_textOf {s : String} (h : ctx.textOf t = .ok s) : t.hasCapture = false := by
  cases t with
  | text | reference => rfl
  | _ => cases h

/-- What is read as an array of texts has texts for items, or is a reference. -/
theorem hasCapture_of_textsOf {items : List String} (h : ctx.textsOf t = .ok items) :
    t.hasCapture = false := by
  cases t with
  | array ts =>
    rw [itemTexts_eq_ok h]
    exact Term.hasCapture_texts items
  | reference => rfl
  | _ => cases h

/-- A definition of a rule set has captures in its internal listing alone. -/
theorem hasCapture_of_ruleSet {s : RuleSet} (h : RuleSet.ofTerm t = .ok s)
    (ht : t.inSight f borne = true) : t.hasCapture = false := by
  cases t with
  | call name l internal =>
    rw [RuleSet.ofTerm] at h
    split at h
    · cases h
    split at h
    · cases h
    · next hempty =>
      have hnil : l.entries = [] := by simpa [Listing.isEmpty] using hempty
      rw [Term.inSight, Bool.and_eq_true, Bool.not_eq_true'] at ht
      rw [Term.hasCapture_call, hnil, ht.1]
      rfl
  | _ => cases h

/-- **A definition that matches an entry bears its name**, so it has no capture if it is looked into
and in sight. -/
theorem hasCapture_of_singleMatch (h : ctx.singleMatch ns t = .ok (some k))
    (hbears : ctx.BearsOnly borne) (hns : t.hasCapture = true →
      (ParameterKind.entry ns).looksInto f borne t = true) : t.hasCapture = false := by
  rw [Bool.eq_false_iff]
  intro hcapture
  have hlooks := hns hcapture
  cases t with
  | call name l internal =>
    obtain ⟨σ, hrelates⟩ := exists_relates_of_singleMatch h
    obtain ⟨ds, hds, -⟩ := (Relates.parts_iff rfl k.reference?_toTerm).1 hrelates
    have hborne := hbears _ _ k (find?_of_mem_inNamespace (mem_of_singleMatch h)).2 name
      (Term.callName?_of_pairing hds)
    rw [ParameterKind.looksInto, hborne] at hlooks
    cases hlooks
  | _ => cases hlooks

/-- Where anything may stand, a capture is refused, and so is looked into what goes on as a
definition. -/
theorem looksInto_entry_of_shapeOf (h : ctx.shapeOf t = .ok (.definition ns))
    (ht : ParameterKind.anything.looksInto f borne t = true) :
    (ParameterKind.entry ns).looksInto f borne t = true := by
  cases t with
  | call name l internal => exact (Bool.and_eq_true_iff.1 ht).1
  | capture => cases h
  | _ => cases ht

/-- Where anything may stand, nothing with a capture that is looked into is settled. -/
theorem hasCapture_of_settled {r : Resolved} (h : ctx.shapeOf t = .ok (.settled r))
    (ht : t.hasCapture = true → ParameterKind.anything.looksInto ctx.factories borne t = true) :
    t.hasCapture = false := by
  rw [Bool.eq_false_iff]
  intro hcapture
  have hlooks := ht hcapture
  cases t with
  | call name l internal =>
    obtain ⟨ns, hshape⟩ := exists_definition_of_builds h (Bool.and_eq_true_iff.1 hlooks).2
    cases hshape
  | capture => cases h
  | _ => cases hlooks

/-- Nothing but a call with a capture is a function. -/
theorem looksInto_entry_of_inferFamily (h : ctx.inferFamily t = .ok ns)
    (hcapture : t.hasCapture = true) (ht : ParameterKind.anyFunction.looksInto f borne t = true) :
    (ParameterKind.entry ns).looksInto f borne t = true := by
  cases t with
  | call name l internal => exact ht
  | reference => cases hcapture
  | _ => cases h

end Context

/-! ### Courses of construction -/

/-- The kinds of parameters are those of the schema. -/
theorem Component.kind?_congr {c d : Component} (h : c.schema? = d.schema?) (name : String) :
    c.kind? name = d.kind? name := by
  rw [kind?, kind?, declared?, declared?, h]

/-- The kind that a value is read as is one of those that it may be of. -/
theorem Factories.mem_kindsAt {f : Factories} {ns : Namespace} {generic name : String} {index : Nat}
    {label : Label} {p : Prototype} {kind : ParameterKind} (hp : p ∈ f.prototypes ns generic)
    (hname : Build.parameterName generic p.instantiate.names index label = .ok name)
    (hkind : p.instantiate.kind? name = some kind) : kind ∈ f.kindsAt generic index label := by
  refine List.mem_flatMap.2 ⟨ns, ns.mem_all, List.mem_filterMap.2 ⟨p, hp, ?_⟩⟩
  rw [Prototype.kindAt?, hname]
  exact hkind

/-- Whether a construction starts, outside of rule sets, from a definition all of whose captures are
in sight, or on its way from a component that shows none. -/
def Built.InSight (f : Factories) (borne : String → Bool) : Built → Prop
  | .new ns _ t _ | .entry t ns _ | .content t ns _ => ns ≠ .ruleSet → t.inSight f borne = true
  | .parameters generic names index es c _ => Term.entriesInSight f borne generic index es = true ∧
      (∃ ns, ∃ p ∈ f.prototypes ns generic,
        names = p.instantiate.names ∧ c.schema? = p.instantiate.schema?) ∧ c.CaptureFree
  | .argument t kind _ => t.inSight f borne = true ∧
      (t.hasCapture = true → kind.looksInto f borne t = true)

/-- Whether there was no capture in the definition that a construction was for, if all of them were
in sight, and is none in what was made of it. -/
def Built.Clear (f : Factories) (borne : String → Bool) : Built → Prop
  | .new _ _ t _ => t.inSight f borne = true → t.hasCapture = false
  | .entry t ns _ => t.inSight f borne = true →
      (t.hasCapture = true → (ParameterKind.entry ns).looksInto f borne t = true) →
      t.hasCapture = false
  | .content t ns x => (t.inSight f borne = true → t.hasCapture = false) ∧
      (ns ≠ .ruleSet → x.toTerm.hasCapture = false)
  | .parameters _ _ _ es _ c => Term.anyEntryCapture es = false ∧ c.CaptureFree
  | .argument t _ _ => t.hasCapture = false

/-- **Courses of construction store no captures** outside of rule sets, if all captures of what they
are for are in sight; and then there were none. -/
theorem Builds.captures {ctx ctx' : Context} {b : Built} (h : Builds ctx b ctx') {f : Factories}
    {borne : String → Bool} (hf : f.CaptureFree) (hfactories : ctx.factories = f)
    (hbears : ctx'.BearsOnly borne) (hctx : ctx.CaptureFree) (hb : b.InSight f borne) :
    ctx'.CaptureFree ∧ b.Clear f borne := by
  -- On the course, which keeps entries one by one. The names that are borne at the end are borne by
  -- none but entries that were kept on the way, so the bound is the same all along.
  induction h with
  | named _ hx hfree ih =>
    obtain ⟨hctx', ht, hstored⟩ :=
      ih hfactories (hbears.of_grows (.kept (.refl _) hfree hx.suits (.refl _))) hctx hb
    exact ⟨hctx'.keep hfree hstored, ht⟩
  | @numbered ctx _ ns _ _ hx hfree ih =>
    obtain ⟨hctx', ht, hstored⟩ :=
      ih hfactories (hbears.of_grows (.kept (.refl _) hfree hx.suits (.refl _)))
        (hctx.raised (.mint ctx ns)) hb
    exact ⟨hctx'.keep hfree hstored, ht⟩
  | referred => exact ⟨hctx, fun _ _ ↦ rfl⟩
  | matched _ h => exact ⟨hctx, fun _ hlooks ↦ Context.hasCapture_of_singleMatch h hbears hlooks⟩
  | @matchedLater ctx _ _ ns _ _ _ _ _ _ ih =>
    obtain ⟨hctx', ht, -⟩ := ih hfactories hbears (hctx.raised (.mint ctx ns)) hb
    exact ⟨hctx', fun hsight _ ↦ ht hsight⟩
  | @made ctx _ _ ns _ _ _ hx _ hfree ih =>
    obtain ⟨hctx', ht, hstored⟩ :=
      ih hfactories (hbears.of_grows (.kept (.refl _) hfree hx.suits (.refl _)))
        (hctx.raised (.mint ctx ns)) hb
    exact ⟨hctx'.keep hfree hstored, fun hsight _ ↦ ht hsight⟩
  | array h =>
    exact ⟨hctx, fun _ ↦ Context.hasCapture_of_textsOf h, fun _ ↦ Term.hasCapture_texts _⟩
  | value h => exact ⟨hctx, fun _ ↦ Context.hasCapture_of_textOf h, fun _ ↦ rfl⟩
  | ruleSet h =>
    exact ⟨hctx, Context.hasCapture_of_ruleSet h, fun hne ↦ absurd rfl hne⟩
  -- A definition: its captures are in its parameters, since the internal listing has none.
  | @component ctx ctx' ctx'' ns name parameters internal p c hns _ hp hraised _ ih =>
    obtain ⟨es, form⟩ := parameters
    have hne : ns ≠ .ruleSet := fun heq ↦ hns (heq ▸ List.mem_cons_self)
    have hsight := hb hne
    rw [Term.inSight, Bool.and_eq_true, Bool.not_eq_true'] at hsight
    rw [hfactories] at hp
    obtain ⟨hctx', hes, hc⟩ := ih (hraised.factories_eq.trans hfactories) hbears
      (hctx.raised hraised) ⟨hsight.2, ⟨ns, p, hp, rfl, rfl⟩, hf.instantiate hp⟩
    refine ⟨hctx', fun _ ↦ ?_, fun _ ↦ (hc.withInternal hsight.1).toTerm⟩
    rw [Term.hasCapture_call, hsight.1, Bool.or_false]
    exact hes
  | noParameters => exact ⟨hctx, rfl, hb.2.2⟩
  -- A parameter: if its value has a capture, then the kind it is read as looks into it, as all
  -- kinds do that it may be of.
  | @parameter _ ctx₁ _ generic names index e es c c' _ name kind r hname hkind hr hset h ihr ih =>
    obtain ⟨hsight, ⟨ns, p, hp, rfl, hschema⟩, hc⟩ := hb
    obtain ⟨hlooks, ht, hrest⟩ := Term.entriesInSight_cons.1 hsight
    obtain ⟨js, hgrows⟩ := hr.grows
    obtain ⟨ks, hgrows'⟩ := h.grows
    have hkind' : p.instantiate.kind? name = some kind := by
      rw [← Component.kind?_congr hschema]
      exact Build.kind?_of_parameterKind hkind
    obtain ⟨hctx₁, hclear⟩ := ihr hfactories (hbears.of_grows hgrows') hctx
      ⟨ht, fun hcapture ↦ hlooks hcapture kind (Factories.mem_kindsAt hp hname hkind')⟩
    have hschema' : c'.schema? = p.instantiate.schema? := by
      rw [(Component.eq_of_set hset).2]
      exact hschema
    obtain ⟨hctx', hes, hc'⟩ := ih (hgrows.factories_eq.trans hfactories) hbears hctx₁
      ⟨hrest, ⟨ns, p, hp, rfl, hschema'⟩, hc.set hset hclear⟩
    refine ⟨hctx', ?_, hc'⟩
    rw [Term.anyEntryCapture_eq, List.any_cons, ← Term.anyEntryCapture_eq, hes, hclear]
    rfl
  | text h => exact ⟨hctx, Context.hasCapture_of_textOf h⟩
  | texts h => exact ⟨hctx, Context.hasCapture_of_textsOf h⟩
  | settled h =>
    subst hfactories
    exact ⟨hctx, Context.hasCapture_of_settled h hb.2⟩
  | entry _ ih =>
    obtain ⟨hctx', ht⟩ := ih hfactories hbears hctx fun _ ↦ hb.1
    exact ⟨hctx', ht hb.1 hb.2⟩
  | function hns _ ih =>
    obtain ⟨hctx', ht⟩ := ih hfactories hbears hctx fun _ ↦ hb.1
    exact ⟨hctx', ht hb.1 fun hcapture ↦
      Context.looksInto_entry_of_inferFamily hns hcapture (hb.2 hcapture)⟩
  | definition hns _ ih =>
    obtain ⟨hctx', ht⟩ := ih hfactories hbears hctx fun _ ↦ hb.1
    exact ⟨hctx', ht hb.1 fun hcapture ↦
      Context.looksInto_entry_of_shapeOf hns (hb.2 hcapture)⟩

/-! ### Operations -/

namespace Context

variable {ctx : Context} {f : Factories} {borne : String → Bool}

/-- **What is constructed in sight has no capture**, or is in a rule set. -/
theorem CaptureFree.construct (hctx : ctx.CaptureFree) (hf : ctx.factories.CaptureFree)
    (hc : ctx.Coherent) {ns : Namespace} {name? : Option String} {t : Term}
    (hbears : (ctx.construct ns name? t).context.BearsOnly borne)
    (ht : ns ≠ .ruleSet → t.inSight ctx.factories borne = true) :
    (ctx.construct ns name? t).context.CaptureFree ∧
      (ns ≠ .ruleSet → t.hasCapture = true → (ctx.construct ns name? t).result.isOk = false) := by
  have hmeets := Build.meets_construct ns name? t
  cases hr : (ctx.construct ns name? t).result with
  | error e => exact ⟨hctx.raised (perform_error hmeets hc hr), fun _ _ ↦ rfl⟩
  | ok k =>
    obtain ⟨hctx', hclear⟩ := (perform_ok hmeets hc hr).captures hf rfl hbears hctx ht
    refine ⟨hctx', fun hns hcapture ↦ ?_⟩
    rw [hclear (ht hns)] at hcapture
    cases hcapture

/-- What is asked for in sight has no capture, or is in a rule set. -/
theorem CaptureFree.getOrConstruct (hctx : ctx.CaptureFree) (hf : ctx.factories.CaptureFree)
    (hc : ctx.Coherent) {ns : Namespace} {t : Term}
    (hbears : (ctx.getOrConstruct ns t).context.BearsOnly borne)
    (ht : ns ≠ .ruleSet → t.inSight ctx.factories borne = true) :
    (ctx.getOrConstruct ns t).context.CaptureFree ∧
      (ns ≠ .ruleSet → t.hasCapture = true →
        (ParameterKind.entry ns).looksInto ctx.factories borne t = true →
        (ctx.getOrConstruct ns t).result.isOk = false) := by
  have hmeets := Build.meets_findOrBuild t ns
  cases hr : (ctx.getOrConstruct ns t).result with
  | error e => exact ⟨hctx.raised (perform_error hmeets hc hr), fun _ _ _ ↦ rfl⟩
  | ok k =>
    obtain ⟨hctx', hclear⟩ := (perform_ok hmeets hc hr).captures hf rfl hbears hctx ht
    refine ⟨hctx', fun hns hcapture hlooks ↦ ?_⟩
    rw [hclear (ht hns) fun _ ↦ hlooks] at hcapture
    cases hcapture

/-- Whether all captures of a statement are in sight, or it declares a rule set. -/
def StatementInSight (f : Factories) (borne : String → Bool) (s : Entry Term) : Prop :=
  declaredNamespace s ≠ .ok .ruleSet → s.value.inSight f borne = true

/-- Whether a statement has a capture and declares no rule set. -/
def Strays (s : Entry Term) : Prop :=
  declaredNamespace s ≠ .ok .ruleSet ∧ s.value.hasCapture = true

/-- A statement that strays is refused, where its captures are in sight. -/
theorem CaptureFree.declare (hctx : ctx.CaptureFree) (hf : ctx.factories.CaptureFree)
    (hc : ctx.Coherent) {s : Entry Term} (hbears : (ctx.declare s).context.BearsOnly borne)
    (hs : StatementInSight ctx.factories borne s) :
    (ctx.declare s).context.CaptureFree ∧ (Strays s → (ctx.declare s).result.isOk = false) := by
  cases hns : declaredNamespace s with
  | error e =>
    rw [Context.declare, hns]
    exact ⟨hctx, fun _ ↦ rfl⟩
  | ok ns =>
    rw [declare_eq hns] at hbears ⊢
    have hne (h : ns ≠ .ruleSet) : declaredNamespace s ≠ .ok .ruleSet := by
      rw [hns]
      exact fun heq ↦ h (Except.ok.inj heq)
    obtain ⟨hctx', hrefused⟩ := hctx.construct hf hc hbears fun h ↦ hs (hne h)
    refine ⟨hctx', fun hstrays ↦ hrefused (fun heq ↦ hstrays.1 ?_) hstrays.2⟩
    rw [hns, heq]

/-- **Statements that stray are not declared**, where all captures are in sight. -/
theorem CaptureFree.declareAll (hctx : ctx.CaptureFree) (hf : ctx.factories.CaptureFree)
    (hc : ctx.Coherent) {ss : List (Entry Term)}
    (hbears : (ctx.declareAll ss).context.BearsOnly borne)
    (hss : ∀ s ∈ ss, StatementInSight ctx.factories borne s) :
    (ctx.declareAll ss).context.CaptureFree ∧
      ((∃ s ∈ ss, Strays s) → (ctx.declareAll ss).result.isOk = false) := by
  induction ss generalizing ctx with
  | nil => exact ⟨hctx, fun ⟨s, hs, _⟩ ↦ nomatch hs⟩
  | cons s ss ih =>
    obtain ⟨hs, hss⟩ := List.forall_mem_cons.1 hss
    obtain ⟨js, hgrows⟩ := declare_grows s hc
    cases hr : (ctx.declare s).result with
    | error e =>
      obtain ⟨hresult, hcontext⟩ := declareAll_cons_error ss hr
      rw [hcontext] at hbears ⊢
      rw [hresult]
      exact ⟨(hctx.declare hf hc hbears hs).1, fun _ ↦ rfl⟩
    | ok k =>
      rw [declareAll_cons_ok hr] at hbears ⊢
      obtain ⟨ks, hgrows'⟩ := declareAll_grows ss (hgrows.coherent hc)
      obtain ⟨hctx', hrefused⟩ := hctx.declare hf hc (hbears.of_grows hgrows') hs
      rw [← hgrows.factories_eq] at hf hss
      obtain ⟨hctx'', hrefused'⟩ := ih hctx' hf (hgrows.coherent hc) hbears hss
      refine ⟨hctx'', fun hstrays ↦ ?_⟩
      -- The one that strays is not the first, which was declared.
      rcases (List.exists_mem_cons_iff ..).1 hstrays with hstrays | hstrays
      · have hfails := hrefused hstrays
        rw [hr] at hfails
        cases hfails
      · exact hrefused' hstrays

/-! ### Runs -/

/-- Whether all captures of what an operation defines outside of rule sets are in sight. -/
def Operation.InSight (f : Factories) (borne : String → Bool) : Operation → Prop
  | .load text => ∀ l, Listing.parseStatements text = .ok l → ∀ s ∈ l.entries,
      StatementInSight f borne s
  | .construct ns _ t | .getOrConstruct ns t => ns ≠ .ruleSet → t.inSight f borne = true
  | .getMatch _ _ => True

/-- **Whether an operation defines something with a capture** outside of rule sets. What is asked
for by a name that is borne may be found, and is not defined then. -/
def Operation.Strays (f : Factories) (borne : String → Bool) : Operation → Prop
  | .load text => ∃ l, Listing.parseStatements text = .ok l ∧ ∃ s ∈ l.entries, Context.Strays s
  | .construct ns _ t => ns ≠ .ruleSet ∧ t.hasCapture = true
  | .getOrConstruct ns t => ns ≠ .ruleSet ∧ t.hasCapture = true ∧
      (ParameterKind.entry ns).looksInto f borne t = true
  | .getMatch _ _ => False

/-- Whether an operation succeeds. -/
def accepts (ctx : Context) : Operation → Bool
  | .load text => (ctx.load text).result.isOk
  | .construct ns name? t => (ctx.construct ns name? t).result.isOk
  | .getOrConstruct ns t => (ctx.getOrConstruct ns t).result.isOk
  | .getMatch ns pattern => (ctx.getMatch ns pattern).result.isOk

/-- **An operation stores no captures** outside of rule sets, and is refused if it strays. -/
theorem CaptureFree.after (hctx : ctx.CaptureFree) (hf : ctx.factories.CaptureFree)
    (hc : ctx.Coherent) {op : Operation} (hbears : (ctx.after op).BearsOnly borne)
    (hop : op.InSight ctx.factories borne) : (ctx.after op).CaptureFree ∧
      (op.Strays ctx.factories borne → ctx.accepts op = false) := by
  cases op with
  | load text =>
    cases hparse : Listing.parseStatements text with
    | error e =>
      rw [Context.after, accepts, (load_of_parse_error hparse).1, (load_of_parse_error hparse).2]
      exact ⟨hctx, fun _ ↦ rfl⟩
    | ok l =>
      rw [Context.after, load_of_parse hparse] at hbears
      rw [Context.after, accepts, load_of_parse hparse]
      obtain ⟨hctx', hrefused⟩ := hctx.declareAll hf hc hbears (hop l hparse)
      refine ⟨hctx', ?_⟩
      rintro ⟨l', hl', hstrays⟩
      rw [hparse] at hl'
      cases hl'
      exact hrefused hstrays
  | construct ns name? t =>
    obtain ⟨hctx', hrefused⟩ := hctx.construct hf hc hbears hop
    exact ⟨hctx', fun hstrays ↦ hrefused hstrays.1 hstrays.2⟩
  | getOrConstruct ns t =>
    obtain ⟨hctx', hrefused⟩ := hctx.getOrConstruct hf hc hbears hop
    exact ⟨hctx', fun hstrays ↦ hrefused hstrays.1 hstrays.2.1 hstrays.2.2⟩
  | getMatch ns pattern => exact ⟨hctx, False.elim⟩

/-- Nor does a run. -/
theorem CaptureFree.run (hctx : ctx.CaptureFree) (hf : ctx.factories.CaptureFree)
    (hc : ctx.Coherent) {ops : List Operation} (hbears : (ctx.run ops).BearsOnly borne)
    (hops : ∀ op ∈ ops, op.InSight ctx.factories borne) : (ctx.run ops).CaptureFree := by
  induction ops generalizing ctx with
  | nil => exact hctx
  | cons op ops ih =>
    obtain ⟨hop, hops⟩ := List.forall_mem_cons.1 hops
    obtain ⟨js, hgrows⟩ := after_grows op hc
    obtain ⟨ks, hgrows'⟩ := run_grows ops (hgrows.coherent hc)
    have hctx' := (hctx.after hf hc (hbears.of_grows hgrows') hop).1
    rw [← hgrows.factories_eq] at hf hops
    exact ih hctx' hf (hgrows.coherent hc) hbears hops

/-- **Captures stay in rules**, as far as they are in sight. Take a run from an empty context in
which no default of a parameter has a capture, and in which all captures of what is defined outside
of rule sets are in sight, given the names that entries bear at the end. Then no entry outside of
rule sets has a capture anywhere in its term, and every operation fails that defines something with
a capture outside of rule sets. -/
theorem captures_kept_out (home : Nat) (factories : Factories) (hdefaults : factories.CaptureFree)
    (ops : List Operation)
    (hops : ∀ op ∈ ops, op.InSight factories ((empty home factories).run ops).bears) :
    (∀ k ∈ ((empty home factories).run ops).entries, k.ns ≠ .ruleSet →
      k.toTerm.hasCapture = false) ∧
    ∀ before op behind, ops = before ++ op :: behind →
      op.Strays factories ((empty home factories).run ops).bears →
      ((empty home factories).run before).accepts op = false := by
  have hempty := coherent_empty home factories
  obtain ⟨js, hgrows⟩ := run_grows ops hempty
  have hbears := (hgrows.coherent hempty).bearsOnly
  -- Of the names at the end nothing matters but that no entry has borne another one.
  generalize ((empty home factories).run ops).bears = borne at hbears hops
  refine ⟨fun k hk hns ↦ ?_, ?_⟩
  · have hfree := (CaptureFree.empty home factories).run hdefaults hempty hbears hops
    exact hfree k.ns k.name k (find?_of_mem_entries hk) hns
  · rintro before op behind rfl hstrays
    obtain ⟨ks, hgrows₁⟩ := run_grows before hempty
    have hc := hgrows₁.coherent hempty
    obtain ⟨ls, hgrows₂⟩ := after_grows op hc
    obtain ⟨ms, hgrows₃⟩ := run_grows behind (hgrows₂.coherent hc)
    have hrun : (empty home factories).run (before ++ op :: behind) =
        (((empty home factories).run before).after op).run behind := List.foldl_append
    rw [hrun] at hbears
    have hbears₂ := hbears.of_grows hgrows₃
    obtain ⟨hbefore, hop⟩ := List.forall_mem_append.1 hops
    have hctx := (CaptureFree.empty home factories).run hdefaults hempty
      (hbears₂.of_grows hgrows₂) hbefore
    -- The run is cut before the operation and after it; the names at its end bound those at both
    -- cuts.
    have hfactories : ((empty home factories).run before).factories = factories :=
      hgrows₁.factories_eq
    have hop := hop op List.mem_cons_self
    generalize (empty home factories).run before = ctx at *
    subst hfactories
    exact (hctx.after hdefaults hc hbears₂ hop).2 hstrays

/-- Rules are kept with their captures, and so is a feature without one; a feature with a capture
inside of a function is refused. -/
theorem captures_kept_out_nested :
    let call (name : String) (t : Term) : Term :=
      .call name ⟨[⟨.named "p", [], t⟩], .parameters⟩ none
    let rules : Term := .call "RuleSet" {}
      (some [⟨.typed "rule" "a", [], .rule (call "F" (.capture "n")) (.capture "n")⟩])
    let factories : Factories := ⟨[], [.feature, .strFn]⟩
    let r : Operation := .construct .ruleSet (some "r") rules
    let A : Operation := .construct .feature (some "A") (call "F" (call "G" (.text "x")))
    let B : Operation := .construct .feature (some "B") (call "F" (call "H" (.capture "n")))
    let ctx := (empty 0 factories).run [r, A, B]
    ctx.order = [(.ruleSet, "r"), (.strFn, "0"), (.feature, "A")] ∧
      (∀ k ∈ ctx.entries, k.ns ≠ .ruleSet → k.toTerm.hasCapture = false) ∧
      ((empty 0 factories).run [r, A]).accepts B = false := by
  intro call rules factories r A B ctx
  have hsight : ∀ t ∈ [call "F" (call "G" (.text "x")), call "F" (call "H" (.capture "n"))],
      t.inSight factories ctx.bears = true := by
    decide +kernel
  obtain ⟨hA, hB⟩ := List.forall_mem_cons.1 hsight
  have hops : ∀ op ∈ [r, A, B], op.InSight factories ctx.bears :=
    List.forall_mem_cons.2 ⟨fun hns ↦ absurd rfl hns, List.forall_mem_cons.2 ⟨fun _ ↦ hA,
      List.forall_mem_singleton.2 fun _ ↦ hB _ List.mem_cons_self⟩⟩
  have horder : ctx.order = [(.ruleSet, "r"), (.strFn, "0"), (.feature, "A")] := by decide +kernel
  have hstrays : B.Strays factories ctx.bears := ⟨by decide, by decide +kernel⟩
  obtain ⟨hfree, hrefused⟩ := captures_kept_out 0 factories nofun [r, A, B] hops
  exact ⟨horder, hfree, hrefused [r, A] B [] rfl hstrays⟩

/-- **Captures are overlooked** in an array, in an internal listing, and in a definition that
matches a function. -/
theorem captures_overlooked :
    let call (name : String) (t : Term) : Term :=
      .call name ⟨[⟨.named "p", [], t⟩], .parameters⟩ none
    let stored (ops : List Operation) : List Term :=
      (((empty 0 ⟨[], [.feature, .strFn]⟩).run ops).inNamespace .feature).map (·.toTerm)
    let array := call "F" (.array [.capture "n", .text "x"])
    let internal : Term := .call "F" {} (some [⟨.named "p", [], .capture "n"⟩])
    let inline := call "F" (call "G" (.capture "n"))
    (∀ t ∈ [array, internal, inline], t.hasCapture = true) ∧
      stored [.construct .feature (some "A") array] = [array] ∧
      stored [.construct .feature (some "A") internal] = [internal] ∧
      stored [.construct .strFn (some "T") (call "G" (.text "x")),
        .construct .feature (some "A") inline] = [inline] := by
  decide +kernel

end Context

end TermRegistry
