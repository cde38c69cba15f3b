import TermRegistry.Proofs.Reachable
import TermRegistry.Proofs.RuleSet.Writing

/-!
# Legible contexts

A context is legible if its text reads back as its own declarations: the term of every entry is
well-formed, and so is every default of a declared parameter, from which terms of later entries may
be made up. Whatever is built from well-formed terms keeps a context legible, because an entry shows
nothing but pieces of the definition it was built from and defaults: texts, rules, the parameters as
they were written, and the internal listing.
-/

namespace TermRegistry

/-! ### Components -/

/-- Whether the default of a declared parameter can be written, if it has one. -/
def Parameter.isLegible (p : Parameter) : Bool := p.default?.all Term.isWellFormed

/-- **Legible components**: whatever their terms are made up of can be written. -/
structure Component.Legible (c : Component) : Prop where
  defaults : ∀ schema, c.schema? = some schema → schema.all Parameter.isLegible = true
  values : ∀ v ∈ c.values, v.2.written.isWellFormed = true
  internal : ∀ es, c.internal? = some es →
    Listing.areStatements es = true ∧ Term.entriesWellFormed es = true

namespace Component

variable {c : Component}

/-- A parameter of a legible component has a well-formed term, if it has one. -/
theorem Legible.get? (h : c.Legible) {name : String} {t : Term} (ht : c.get? name = some t) :
    t.isWellFormed = true := by
  rw [Component.get?] at ht
  split at ht
  · next a ha =>
    cases ht
    obtain ⟨l₁, l₂, hl, -⟩ := List.lookup_eq_some_iff.1 ha
    exact h.values (name, a) (hl ▸ List.mem_append_right l₁ List.mem_cons_self)
  · obtain ⟨p, hp, ht⟩ := Option.bind_eq_some_iff.1 ht
    obtain ⟨schema, hschema, hp⟩ := Option.bind_eq_some_iff.1 hp
    have hlegible := List.all_eq_true.1 (h.defaults schema hschema) p (List.mem_of_find?_eq_some hp)
    rw [Parameter.isLegible, ht] at hlegible
    exact hlegible

/-- **The term of a legible component is well-formed.** -/
theorem Legible.toTerm (h : c.Legible) : c.toTerm.isWellFormed = true := by
  rw [Component.toTerm]
  generalize hes : c.names.filterMap (fun name ↦ (c.get? name).map fun t ↦
    (⟨.named name, [], t⟩ : Entry Term)) = es
  -- Every parameter is written under its name, with the term that is set or the default.
  have hentry : ∀ e ∈ es, ∃ name t, c.get? name = some t ∧ e = ⟨.named name, [], t⟩ := by
    intro e he
    rw [← hes] at he
    obtain ⟨name, -, he⟩ := List.mem_filterMap.1 he
    obtain ⟨t, ht, he⟩ := Option.map_eq_some_iff.1 he
    exact ⟨name, t, ht, he.symm⟩
  have hparameters : Listing.areParameters es = true := by
    refine Bool.and_eq_true_iff.2 ⟨List.all_eq_true.2 fun e he ↦ ?_, decide_eq_true (.inl ?_)⟩
    · obtain ⟨name, t, -, rfl⟩ := hentry e he
      rfl
    · intro e he
      obtain ⟨name, t, -, rfl⟩ := hentry e he
      rfl
  have hvalues : Term.entriesWellFormed es = true := by
    rw [Term.entriesWellFormed_eq]
    refine List.all_eq_true.2 fun e he ↦ ?_
    obtain ⟨name, t, ht, rfl⟩ := hentry e he
    exact h.get? ht
  cases hinternal : c.internal? with
  | none =>
    show (_ && _ && _) = true
    rw [hparameters, hvalues]
    rfl
  | some inside =>
    obtain ⟨hinside, hinside'⟩ := h.internal inside hinternal
    show (_ && _ && _ && _ && _) = true
    rw [hparameters, hvalues, hinside, hinside']
    rfl

theorem Legible.set (h : c.Legible) {name : String} {a : Argument}
    (ha : a.written.isWellFormed = true) {c' : Component} (hset : c.set name a = .ok c') :
    c'.Legible := by
  rw [Component.set] at hset
  split at hset
  · cases hset
  split at hset
  · cases hset
    refine ⟨h.defaults, fun v hv ↦ ?_, h.internal⟩
    -- The value under the name is replaced, or a new one is put at the end.
    simp only [put] at hv
    split at hv
    · obtain ⟨w, hw, rfl⟩ := List.mem_map.1 hv
      split
      · exact ha
      · exact h.values w hw
    · rcases List.mem_append.1 hv with hv | hv
      · exact h.values v hv
      · rw [List.mem_singleton.1 hv]
        exact ha
  · cases hset

theorem Legible.withInternal (h : c.Legible) {internal : Option (List (Entry Term))}
    (hinternal : ∀ es, internal = some es →
      Listing.areStatements es = true ∧ Term.entriesWellFormed es = true) :
    (c.withInternal internal).Legible := by
  cases internal with
  | none => exact h
  | some es =>
    refine ⟨h.defaults, h.values, ?_⟩
    rintro _ ⟨rfl⟩
    exact hinternal es rfl

end Component

/-! ### Contexts -/

/-- Factories whose components have nothing but well-formed defaults. -/
def Factories.Legible (f : Factories) : Prop := ∀ p ∈ f.registered, p.instantiate.Legible

/-- Fresh components are legible: those of fallbacks have no defaults at all. -/
theorem Factories.Legible.instantiate {f : Factories} (h : f.Legible) {ns : Namespace}
    {name : String} {p : Prototype} (hp : p ∈ f.prototypes ns name) : p.instantiate.Legible := by
  rw [prototypes] at hp
  split at hp
  · split at hp
    · rw [List.mem_singleton.1 hp]
      exact ⟨nofun, nofun, nofun⟩
    · cases hp
  · exact h p (List.mem_filter.1 hp).1

/-- The composites take their operands without a default. -/
theorem Factories.legible_standard : standard.Legible := by
  intro p hp
  obtain ⟨ns, -, rfl⟩ := List.mem_map.1 hp
  refine ⟨?_, nofun, nofun⟩
  rintro _ ⟨rfl⟩
  rfl

theorem Factories.Legible.withFallback {f : Factories} (h : f.Legible) (ns : Namespace) :
    (f.withFallback ns).Legible := by
  rw [Factories.withFallback]
  split
  · exact h
  · exact h

namespace Context

/-- **Legible contexts**: the terms of all entries can be written, and all defaults. -/
structure Legible (ctx : Context) : Prop where
  factories : ctx.factories.Legible
  found : ∀ ns name k, ctx.find? ns name = some k → k.toTerm.isWellFormed = true

namespace Legible

variable {ctx ctx' : Context}

theorem raised (h : ctx.Legible) (hr : ctx.Raised ctx') : ctx'.Legible := by
  refine ⟨hr.factories_eq ▸ h.factories, fun ns name k hk ↦ ?_⟩
  rw [hr.find?_eq] at hk
  exact h.found ns name k hk

theorem withCounter (h : ctx.Legible) (n : Nat) : (ctx.withCounter n).Legible :=
  ⟨h.factories, h.found⟩

theorem keep (h : ctx.Legible) {ns : Namespace} {name : String} {x : Content}
    (hfree : ctx.contains ns name = false) (hx : x.toTerm.isWellFormed = true) :
    (ctx.keep ns name x).2.Legible := by
  refine ⟨h.factories, fun ns' n k hk ↦ ?_⟩
  rw [find?_keep hfree] at hk
  split at hk
  · cases hk
    exact hx
  · exact h.found ns' n k hk

end Legible

end Context

/-! ### Courses of construction -/

/-- Whether everything that a construction starts from on its way can be written. -/
def Built.StartsLegible : Built → Prop
  | .new _ _ t _ | .entry t _ _ | .content t _ _ | .argument t _ _ => t.isWellFormed = true
  | .parameters _ _ _ es c _ => Term.entriesWellFormed es = true ∧ c.Legible

/-- Whether what a construction yields on its way can be written. -/
def Built.EndsLegible : Built → Prop
  | .content _ _ x => x.toTerm.isWellFormed = true
  | .parameters _ _ _ _ _ c => c.Legible
  | _ => True

/-- **Courses of construction keep a context legible** if what they build is written. -/
theorem Builds.legible {ctx ctx' : Context} {b : Built} (h : Builds ctx b ctx')
    (hctx : ctx.Legible) (hb : b.StartsLegible) : ctx'.Legible ∧ b.EndsLegible := by
  induction h with
  | named _ _ hfree' ih =>
    obtain ⟨hctx', hx⟩ := ih hctx hb
    exact ⟨hctx'.keep hfree' hx, trivial⟩
  | numbered _ hfree ih =>
    obtain ⟨hctx', hx⟩ := ih (hctx.withCounter _) hb
    exact ⟨hctx'.keep hfree hx, trivial⟩
  | referred | matched => exact ⟨hctx, trivial⟩
  | matchedLater _ _ _ _ ih => exact ⟨(ih (hctx.withCounter _) hb).1, trivial⟩
  | made _ _ _ _ hfree ih =>
    obtain ⟨hctx', hx⟩ := ih (hctx.withCounter _) hb
    exact ⟨hctx'.keep hfree hx, trivial⟩
  | @array _ _ items =>
    refine ⟨hctx, ?_⟩
    show Term.allWellFormed (items.map .text) = true
    rw [Term.allWellFormed_eq, List.all_map]
    exact List.all_eq_true.2 fun _ _ ↦ rfl
  | value => exact ⟨hctx, rfl⟩
  | ruleSet h => exact ⟨hctx, RuleSet.isWellFormed_of_ofTerm hb h⟩
  | @component _ _ _ ns name parameters internal p c _ _ hp hraised _ ih =>
    obtain ⟨es, form⟩ := parameters
    -- The internal listing is taken over from the definition as it stands there.
    have hparts : Term.entriesWellFormed es = true ∧ ∀ inside, internal = some inside →
        Listing.areStatements inside = true ∧ Term.entriesWellFormed inside = true := by
      cases internal with
      | none =>
        refine ⟨(Bool.and_eq_true_iff.1 hb).2, fun inside hinside ↦ ?_⟩
        cases hinside
      | some inside =>
        obtain ⟨hb, hinside'⟩ := Bool.and_eq_true_iff.1 hb
        obtain ⟨hb, hinside⟩ := Bool.and_eq_true_iff.1 hb
        refine ⟨(Bool.and_eq_true_iff.1 hb).2, ?_⟩
        rintro _ ⟨rfl⟩
        exact ⟨hinside, hinside'⟩
    obtain ⟨hctx', hc⟩ :=
      ih (hctx.raised hraised) ⟨hparts.1, hctx.factories.instantiate hp⟩
    exact ⟨hctx', (hc.withInternal hparts.2).toTerm⟩
  | noParameters => exact ⟨hctx, hb.2⟩
  | parameter _ _ _ hset _ ihr ih =>
    obtain ⟨hes, hc⟩ := hb
    rw [Term.entriesWellFormed_cons, Bool.and_eq_true] at hes
    exact ih (ihr hctx hes.1).1 ⟨hes.2, hc.set hes.1 hset⟩
  | text | texts | settled => exact ⟨hctx, trivial⟩
  | entry _ ih | function _ _ ih | definition _ _ ih => exact ⟨(ih hctx hb).1, trivial⟩

/-! ### Operations -/

namespace Context

variable {ctx : Context}

/-- **What is built from well-formed terms keeps a context legible**, and so does what fails. -/
theorem preserved_legible : Preserved (·.isWellFormed = true) Legible where
  raised h hr := h.raised hr
  new _ h ht hk := (hk.legible h ht).1
  entry _ h ht hk := (hk.legible h ht).1

/-- Whatever is read from a text is well-formed. -/
theorem Legible.load (h : ctx.Legible) (hc : ctx.Coherent) (text : String) :
    (ctx.load text).context.Legible := by
  refine preserved_legible.load hc h fun l hl s hs ↦ ?_
  have hstatements := Bool.and_eq_true_iff.1 (Listing.isStatementList_of_parseStatements hl)
  rw [Term.entriesWellFormed_eq, List.all_eq_true] at hstatements
  exact hstatements.2 s hs

/-! ### The text of a legible context -/

/-- **The text of a legible context reads back as the statements of its entries.** -/
theorem Legible.parse_render (h : ctx.Legible) : Listing.parseStatements ctx.render =
    .ok ⟨ctx.entries.map Kept.statement, .statements⟩ := by
  have hrender : ctx.render =
      Listing.render ⟨ctx.entries.map Kept.statement, .statements⟩ := by
    rw [render, statements]
    -- Without entries the form is the other one, but the text is empty all the same.
    cases ctx.entries <;> rfl
  rw [hrender, Listing.parseStatements_render_eq_ok]
  refine Bool.and_eq_true_iff.2 ⟨Bool.and_eq_true_iff.2 ⟨rfl, ?_⟩, ?_⟩
  · refine List.all_eq_true.2 fun e he ↦ ?_
    obtain ⟨k, -, rfl⟩ := List.mem_map.1 he
    rfl
  · rw [Term.entriesWellFormed_eq]
    refine List.all_eq_true.2 fun e he ↦ ?_
    obtain ⟨k, hk, rfl⟩ := List.mem_map.1 he
    exact h.found _ _ k (find?_of_mem_entries hk)

/-- Legible contexts with the same text have the same statements. -/
theorem Legible.statements_eq {ctx' : Context} (h : ctx.Legible) (h' : ctx'.Legible)
    (hrender : ctx.render = ctx'.render) :
    ctx.entries.map Kept.statement = ctx'.entries.map Kept.statement := by
  have hparse := h.parse_render
  rw [hrender, h'.parse_render] at hparse
  exact (congrArg Listing.entries (Except.ok.inj hparse)).symm

end Context

end TermRegistry
