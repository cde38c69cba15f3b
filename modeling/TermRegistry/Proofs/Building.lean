import TermRegistry.Context.Construction
import TermRegistry.Proofs.Growth
import TermRegistry.Proofs.Success

/-!
# Building without backtracking

`Builds ctx b ctx'` says that a context yields what `b` says and becomes another one, in the course
of a construction in which nothing fails. There is no rule for a prototype that rejects a
definition: in front of the prototype that accepts it, the context may only have been raised. A
successful construction is shown elsewhere to be such a course, and so what rejected prototypes kept
has left no trace but used numbers.

There is one rule for each way in which a definition is found or made, in which content is read off
a term, and in which an argument is resolved; the four kinds of judgements are those of the four
functions that call each other in a construction, and a fifth one is for the new entry that it is
all done for.
-/

namespace TermRegistry

/-- What a construction yields on its way. -/
inductive Built
  /-- A new entry, under a given name or a minted one. -/
  | new (ns : Namespace) (name? : Option String) (t : Term) (k : Kept)
  /-- The entry that a definition refers to or matches, or that was made for it. -/
  | entry (t : Term) (ns : Namespace) (k : Kept)
  /-- The object that a term describes in a namespace. -/
  | content (t : Term) (ns : Namespace) (x : Content)
  /-- A component whose parameters were set, from a position on. -/
  | parameters (generic : String) (names : List String) (index : Nat) (es : List (Entry Term))
      (c c' : Component)
  /-- What the value of a parameter of a kind resolved to. -/
  | argument (t : Term) (kind : ParameterKind) (r : Resolved)

/-- **Courses of construction** in which nothing fails. -/
inductive Builds : Context → Built → Context → Prop
  | named {ctx ctx' : Context} {ns : Namespace} {name : String} {t : Term} {x : Content}
      (hfree : ctx.contains ns name = false) (hx : Builds ctx (.content t ns x) ctx')
      (hfree' : ctx'.contains ns name = false) :
      Builds ctx (.new ns (some name) t (ctx'.keep ns name x).1) (ctx'.keep ns name x).2
  | numbered {ctx ctx' : Context} {ns : Namespace} {t : Term} {x : Content}
      (hx : Builds (ctx.withCounter (ctx.nextNumber ns + 1)) (.content t ns x) ctx')
      (hfree : ctx'.contains ns (ctx.nextNumber ns).repr = false) :
      Builds ctx (.new ns none t (ctx'.keep ns (ctx.nextNumber ns).repr x).1)
        (ctx'.keep ns (ctx.nextNumber ns).repr x).2
  | referred {ctx : Context} {name : String} {ns : Namespace} {k : Kept}
      (h : ctx.find? ns name = some k) : Builds ctx (.entry (.reference name) ns k) ctx
  | matched {ctx : Context} {t : Term} {ns : Namespace} {k : Kept} (ht : t.reference? = none)
      (h : ctx.singleMatch ns t = .ok (some k)) : Builds ctx (.entry t ns k) ctx
  /-- An entry that the definition matches was made while its parameters were built. -/
  | matchedLater {ctx ctx' : Context} {t : Term} {ns : Namespace} {x : Content} {k : Kept}
      (ht : t.reference? = none) (h : ctx.singleMatch ns t = .ok none)
      (hx : Builds (ctx.withCounter (ctx.nextNumber ns + 1)) (.content t ns x) ctx')
      (h' : ctx'.singleMatch ns t = .ok (some k)) : Builds ctx (.entry t ns k) ctx'
  /-- A new entry is kept under the name that was minted for it at first. -/
  | made {ctx ctx' : Context} {t : Term} {ns : Namespace} {x : Content} (ht : t.reference? = none)
      (h : ctx.singleMatch ns t = .ok none)
      (hx : Builds (ctx.withCounter (ctx.nextNumber ns + 1)) (.content t ns x) ctx')
      (h' : ctx'.singleMatch ns t = .ok none)
      (hfree : ctx'.contains ns (ctx.nextNumber ns).repr = false) :
      Builds ctx (.entry t ns (ctx'.keep ns (ctx.nextNumber ns).repr x).1)
        (ctx'.keep ns (ctx.nextNumber ns).repr x).2
  | array {ctx : Context} {t : Term} {items : List String} (h : ctx.textsOf t = .ok items) :
      Builds ctx (.content t .array (.texts items)) ctx
  | value {ctx : Context} {t : Term} {s : String} (h : ctx.textOf t = .ok s) :
      Builds ctx (.content t .value (.text s)) ctx
  | ruleSet {ctx : Context} {t : Term} {s : RuleSet} (h : RuleSet.ofTerm t = .ok s) :
      Builds ctx (.content t .ruleSet (.rules s)) ctx
  /-- A prototype accepts the definition. Those before it have only raised the context. -/
  | component {ctx ctx' ctx'' : Context} {ns : Namespace} {name : String}
      {parameters : Listing Term} {internal : Option (List (Entry Term))} {p : Prototype}
      {c : Component} (hns : ns ∉ [.ruleSet, .array, .value])
      (hfamily : ctx.checkFamily ns (.call name parameters internal) = .ok ())
      (hp : p ∈ ctx.factories.prototypes ns name) (hraised : ctx.Raised ctx')
      (h : Builds ctx' (.parameters name p.instantiate.names 0 parameters.entries p.instantiate c)
        ctx'') :
      Builds ctx (.content (.call name parameters internal) ns
        (.component (c.withInternal internal))) ctx''
  | noParameters {ctx : Context} {generic : String} {names : List String} {index : Nat}
      {c : Component} : Builds ctx (.parameters generic names index [] c c) ctx
  | parameter {ctx ctx' ctx'' : Context} {generic : String} {names : List String} {index : Nat}
      {e : Entry Term} {es : List (Entry Term)} {c c' c'' : Component} {name : String}
      {kind : ParameterKind} {r : Resolved}
      (hname : Build.parameterName generic names index e.label = .ok name)
      (hkind : Build.parameterKind generic c name = .ok kind)
      (hr : Builds ctx (.argument e.value kind r) ctx') (hset : c.set name ⟨e.value, r⟩ = .ok c')
      (h : Builds ctx' (.parameters generic names (index + 1) es c' c'') ctx'') :
      Builds ctx (.parameters generic names index (e :: es) c c'') ctx''
  | text {ctx : Context} {t : Term} {s : String} (h : ctx.textOf t = .ok s) :
      Builds ctx (.argument t .text (.literal (.text s))) ctx
  | texts {ctx : Context} {t : Term} {items : List String} (h : ctx.textsOf t = .ok items) :
      Builds ctx (.argument t .array (.literal (.texts items))) ctx
  | entry {ctx ctx' : Context} {t : Term} {ns : Namespace} {k : Kept}
      (h : Builds ctx (.entry t ns k) ctx') :
      Builds ctx (.argument t (.entry ns) (.entry k.link)) ctx'
  | function {ctx ctx' : Context} {t : Term} {ns : Namespace} {k : Kept}
      (hns : ctx.inferFamily t = .ok ns) (h : Builds ctx (.entry t ns k) ctx') :
      Builds ctx (.argument t .anyFunction (.entry k.link)) ctx'
  | settled {ctx : Context} {t : Term} {r : Resolved} (h : ctx.shapeOf t = .ok (.settled r)) :
      Builds ctx (.argument t .anything r) ctx
  | definition {ctx ctx' : Context} {t : Term} {ns : Namespace} {k : Kept}
      (hns : ctx.shapeOf t = .ok (.definition ns)) (h : Builds ctx (.entry t ns k) ctx') :
      Builds ctx (.argument t .anything (.entry k.link)) ctx'

namespace Context

variable {ctx : Context} {ns : Namespace}

/-- What is among the entries is there. -/
theorem find?_of_mem_entries {k : Kept} (h : k ∈ ctx.entries) : ctx.find? k.ns k.name = some k := by
  obtain ⟨e, -, hk⟩ := List.mem_filterMap.1 h
  obtain ⟨hns, hname⟩ := Registry.place_of_find? hk
  rw [hns, hname]
  exact hk

/-- What is found in a namespace is there. -/
theorem find?_of_mem_inNamespace {k : Kept} (h : k ∈ ctx.inNamespace ns) :
    k.ns = ns ∧ ctx.find? k.ns k.name = some k := by
  obtain ⟨name, -, hk⟩ := List.mem_filterMap.1 h
  obtain ⟨rfl, rfl⟩ := Registry.place_of_find? hk
  exact ⟨rfl, hk⟩

theorem mem_of_matched {s : Storage} {pattern : Term} {ks found : List Kept}
    (h : matched s pattern ks = .ok found) : found ⊆ ks := by
  induction ks generalizing found with
  | nil =>
    cases h
    exact List.nil_subset _
  | cons k ks ih =>
    obtain ⟨m, -, h⟩ := bind_eq_ok.1 h
    obtain ⟨rest, hrest, h⟩ := bind_eq_ok.1 h
    have hsub : rest ⊆ k :: ks := List.Subset.trans (ih hrest) (List.subset_cons_self k ks)
    have hfound : found = if m.isSome then k :: rest else rest := (Except.ok.inj h).symm
    rw [hfound]
    split
    · exact List.cons_subset.2 ⟨List.mem_cons_self, hsub⟩
    · exact hsub

/-- What a pattern matches is an entry of the namespace. -/
theorem mem_of_singleMatch {pattern : Term} {k : Kept}
    (h : ctx.singleMatch ns pattern = .ok (some k)) : k ∈ ctx.inNamespace ns := by
  obtain ⟨found, hfound, h⟩ := bind_eq_ok.1 h
  -- One entry is found, or one of several that are found matches the pattern in turn.
  have hsub := mem_of_matched hfound
  split at h
  · cases h
  · cases h
    exact hsub List.mem_cons_self
  · split at h
    · next k' hk' =>
      cases h
      exact hsub (List.mem_filter.1 (hk' ▸ List.mem_cons_self)).1
    · cases h

end Context

namespace Builds

variable {ctx ctx' : Context} {t : Term} {ns : Namespace}

/-- The object that a term describes suits its namespace. -/
theorem suits {x : Content} (h : Builds ctx (.content t ns x) ctx') : x.suits ns = true := by
  cases h with
  | array | value | ruleSet => rfl
  | component hns =>
    -- A component suits every namespace but the three that are ruled out.
    rw [Content.suits]
    simpa using hns

/-- **A course of construction lets the context grow.** -/
theorem grows {b : Built} (h : Builds ctx b ctx') : ∃ js, ctx.Grows js ctx' := by
  induction h with
  | named _ hx hfree ih =>
    obtain ⟨js, hgrows⟩ := ih
    exact ⟨_, .kept hgrows hfree hx.suits (.refl _)⟩
  | numbered hx hfree ih | made _ _ hx _ hfree ih =>
    obtain ⟨js, hgrows⟩ := ih
    exact ⟨_, .kept (.trans (.raised (.mint _ _)) hgrows) hfree hx.suits (.refl _)⟩
  | matchedLater _ _ _ _ ih =>
    obtain ⟨js, hgrows⟩ := ih
    exact ⟨_, .trans (.raised (.mint _ _)) hgrows⟩
  | component _ _ _ hraised _ ih =>
    obtain ⟨js, hgrows⟩ := ih
    exact ⟨_, .trans (.raised hraised) hgrows⟩
  | parameter _ _ _ _ _ ihr ih =>
    obtain ⟨js, hgrows⟩ := ihr
    obtain ⟨ks, hgrows'⟩ := ih
    exact ⟨_, hgrows.trans hgrows'⟩
  | entry _ ih | function _ _ ih | definition _ _ ih => exact ih
  | _ => exact ⟨[], .refl _⟩

/-- A new entry under a given name has this name. -/
theorem name_eq_of_new {name : String} {k : Kept}
    (h : Builds ctx (.new ns (some name) t k) ctx') : k.name = name := by
  cases h
  rfl

/-- A new entry is the last one that its construction declares. -/
theorem order_eq_of_new {name? : Option String} {k : Kept}
    (h : Builds ctx (.new ns name? t k) ctx') :
    ∃ js, ctx'.order = ctx.order ++ js ++ [k.place] := by
  cases h with
  | named _ hx hfree =>
    obtain ⟨js, hgrows⟩ := hx.grows
    exact ⟨js, by rw [Context.order_keep hfree, hgrows.order_eq]; rfl⟩
  | numbered hx hfree =>
    obtain ⟨js, hgrows⟩ := hx.grows
    exact ⟨js, by rw [Context.order_keep hfree, hgrows.order_eq]; rfl⟩

/-- A new entry is there when its construction is over. -/
theorem find?_eq_of_new {name? : Option String} {k : Kept}
    (h : Builds ctx (.new ns name? t k) ctx') :
    k.ns = ns ∧ ctx'.find? k.ns k.name = some k := by
  cases h with
  | named _ _ hfree | numbered _ hfree => exact ⟨rfl, Context.find?_keep_self hfree⟩

/-- The entry of a definition is there when the construction is over. -/
theorem find?_eq {k : Kept} (h : Builds ctx (.entry t ns k) ctx') :
    k.ns = ns ∧ ctx'.find? k.ns k.name = some k := by
  cases h with
  | referred h =>
    obtain ⟨rfl, rfl⟩ := Registry.place_of_find? h
    exact ⟨rfl, h⟩
  | matched _ h => exact Context.find?_of_mem_inNamespace (Context.mem_of_singleMatch h)
  | matchedLater _ _ _ h' => exact Context.find?_of_mem_inNamespace (Context.mem_of_singleMatch h')
  | made _ _ _ _ hfree => exact ⟨rfl, Context.find?_keep_self hfree⟩

end Builds

end TermRegistry
