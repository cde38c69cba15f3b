import TermRegistry.Proofs.Alike
import TermRegistry.Proofs.Operations

/-!
# Construction is blind to identities

What a construction does depends on the objects of a context only through their names and terms:
from contexts that look alike it leads to contexts that look alike, with the same numbers minted,
and its results look alike or are the same error. `Build.Agrees` says this of two computations, and
there is one lemma for each way of putting computations together and one for each function of the
construction, as for `Build.Meets`.

**Two components side by side.** The parameters of a call are set on two components at once, which
differ in the links that their parameters resolved to. Neither the names and kinds of parameters nor
the test whether a kind takes a value looks further than the namespace of a link, so the two stay
alike, and they show the same term.
-/

namespace TermRegistry

/-! ### Components -/

/-- Values of a parameter that look alike: they are written alike. -/
structure Argument.Alike (a b : Argument) : Prop where
  written_eq : a.written = b.written
  resolved : a.resolved.Alike b.resolved

/-- **Components that look alike** differ in nothing but what their parameters resolved to. -/
structure Component.Alike (c d : Component) : Prop where
  genericName_eq : c.genericName = d.genericName
  schema?_eq : c.schema? = d.schema?
  internal?_eq : c.internal? = d.internal?
  values : List.Forall₂ (fun v w ↦ v.1 = w.1 ∧ v.2.Alike w.2) c.values d.values

/-- A kind takes values that look alike, or neither of them. -/
theorem ParameterKind.takes_eq {r r' : Resolved} (h : r.Alike r') (kind : ParameterKind) :
    kind.takes r = kind.takes r' := by
  -- A kind asks for the namespace of an entry, and for no more.
  cases h with
  | same => rfl
  | entry hns => cases kind <;> simp only [takes, hns]

namespace Component

/-- What is set for a parameter is set alike in both. -/
theorem lookup_alike {vs ws : List (String × Argument)}
    (h : List.Forall₂ (fun v w ↦ v.1 = w.1 ∧ v.2.Alike w.2) vs ws) (name : String) :
    Option.Rel Argument.Alike (vs.lookup name) (ws.lookup name) := by
  induction h with
  | nil => exact .none
  | @cons v w vs ws hv _ ih =>
    rw [List.lookup_cons, List.lookup_cons, hv.1]
    cases name == w.1 with
    | true => exact .some hv.2
    | false => exact ih

/-- Setting a parameter to values that look alike leaves them alike. -/
theorem put_alike {vs ws : List (String × Argument)}
    (h : List.Forall₂ (fun v w ↦ v.1 = w.1 ∧ v.2.Alike w.2) vs ws) {a b : Argument}
    (hab : a.Alike b) (name : String) :
    List.Forall₂ (fun v w ↦ v.1 = w.1 ∧ v.2.Alike w.2) (put vs name a) (put ws name b) := by
  -- The name is set in both or in neither, so both values are replaced or both are put at the end.
  have hset : (vs.lookup name).isSome = (ws.lookup name).isSome := by
    have hlookup := lookup_alike h name
    generalize vs.lookup name = x at hlookup ⊢
    generalize ws.lookup name = y at hlookup ⊢
    cases hlookup <;> rfl
  rw [put, put, hset]
  split
  · rw [List.forall₂_map_left_iff, List.forall₂_map_right_iff]
    refine h.imp fun v w hv ↦ ?_
    rw [hv.1]
    split
    · exact ⟨rfl, hab⟩
    · exact hv
  · exact List.rel_append h (.cons ⟨rfl, hab⟩ .nil)

namespace Alike

variable {c d : Component}

theorem refl (c : Component) : Alike c c where
  genericName_eq := rfl
  schema?_eq := rfl
  internal?_eq := rfl
  values := List.forall₂_same.2 fun _ _ ↦ ⟨rfl, rfl, .same _⟩

/-- Components that look alike have the same names of parameters. -/
theorem names_eq (h : Alike c d) : c.names = d.names := by
  rw [names, names, h.schema?_eq]
  split
  · rfl
  · exact map_eq_of_forall₂ h.values fun _ _ hv ↦ hv.1

theorem declared?_eq (h : Alike c d) (name : String) : c.declared? name = d.declared? name := by
  rw [declared?, declared?, h.schema?_eq]

theorem kind?_eq (h : Alike c d) (name : String) : c.kind? name = d.kind? name := by
  rw [kind?, kind?, h.schema?_eq, h.declared?_eq]

/-- Their parameters have the same values, as they are written. -/
theorem get?_eq (h : Alike c d) (name : String) : c.get? name = d.get? name := by
  rw [get?, get?, argument?, argument?, h.declared?_eq]
  have hlookup := lookup_alike h.values name
  generalize c.values.lookup name = x at hlookup ⊢
  generalize d.values.lookup name = y at hlookup ⊢
  cases hlookup with
  | none => rfl
  | some ha => exact congrArg some ha.written_eq

/-- Components that look alike show the same term. -/
theorem toTerm_eq (h : Alike c d) : c.toTerm = d.toTerm := by
  have hget : c.get? = d.get? := funext h.get?_eq
  rw [toTerm, toTerm, h.genericName_eq, h.names_eq, h.internal?_eq, hget]

/-- **A parameter is set alike**, or is refused for the same reason. -/
theorem set (h : Alike c d) {a b : Argument} (hab : a.Alike b) (name : String) :
    Agree Alike (c.set name a) (d.set name b) := by
  rw [Component.set, Component.set, h.kind?_eq, h.genericName_eq, hab.written_eq]
  split
  · exact .error _
  · rw [ParameterKind.takes_eq hab.resolved]
    split
    · exact .ok ⟨rfl, h.schema?_eq, h.internal?_eq, put_alike h.values hab name⟩
    · exact .error _

/-- The same internal listing may be given to both. -/
theorem withInternal (h : Alike c d) (internal : Option (List (Entry Term))) :
    Alike (c.withInternal internal) (d.withInternal internal) := by
  cases internal with
  | none => exact h
  | some es => exact ⟨h.genericName_eq, h.schema?_eq, rfl, h.values⟩

end Alike

end Component

/-! ### Computations -/

/-- What was done so far looks alike. -/
structure Progress.Alike (p q : Progress) : Prop where
  context : p.context.Alike q.context
  journal_eq : p.journal = q.journal

/-- What was kept since is taken back alike. -/
theorem Progress.Alike.undo {p q : Progress} (h : p.Alike q) (mark : Nat) :
    (p.undo mark).Alike (q.undo mark) := by
  obtain ⟨hcontext, hjournal⟩ := h
  refine ⟨?_, congrArg (List.take mark) hjournal⟩
  rw [Progress.undo, Progress.undo, hjournal]
  induction q.journal.drop mark with
  | nil => exact hcontext
  | cons e es ih => exact ih.forget e.1 e.2

namespace Build

variable {α β γ δ : Type}

/-- **Computations agree** if from contexts that look alike they lead to contexts that look alike,
with results that agree. -/
def Agrees (R : α → β → Prop) (b : Build α) (b' : Build β) : Prop :=
  ∀ p q : Progress, p.Alike q →
    Agree R (outcome b p).1 (outcome b' q).1 ∧ (outcome b p).2.Alike (outcome b' q).2

namespace Agrees

variable {R R' : α → β → Prop} {S : γ → δ → Prop} {b : Build α} {b' : Build β}

theorem pure {a : α} {a' : β} (h : R a a') : Agrees R (pure a) (pure a') :=
  fun _ _ hpq ↦ ⟨.ok h, hpq⟩

theorem throw (e : Error) : Agrees R (throw e) (throw e) :=
  fun _ _ hpq ↦ ⟨.error e, hpq⟩

/-- **Computations that agree go on in agreement**, if their continuations do. -/
theorem bind (h : Agrees R b b') {f : α → Build γ} {f' : β → Build δ}
    (hf : ∀ a a', R a a' → Agrees S (f a) (f' a')) : Agrees S (b >>= f) (b' >>= f') := by
  intro p q hpq
  obtain ⟨hresult, hprogress⟩ := h p q hpq
  rw [outcome_bind, outcome_bind]
  -- Both steps succeed or fail together, so the continuations are reached together, or not.
  generalize outcome b p = x at hresult hprogress ⊢
  generalize outcome b' q = y at hresult hprogress ⊢
  obtain ⟨r, p'⟩ := x
  obtain ⟨r', q'⟩ := y
  cases hresult with
  | ok ha => exact hf _ _ ha p' q' hprogress
  | error e => exact ⟨.error e, hprogress⟩

theorem liftM {r : Except Error α} {r' : Except Error β} (h : Agree R r r') :
    Agrees R (liftM r) (liftM r') := by
  intro p q hpq
  rw [outcome_liftM, outcome_liftM]
  exact ⟨h, hpq⟩

/-- Questions about the context agree if it answers them alike. -/
theorem ask {f : Context → Except Error α} {f' : Context → Except Error β}
    (h : ∀ ctx ctx', Context.Alike ctx ctx' → Agree R (f ctx) (f' ctx')) :
    Agrees R (ask f) (ask f') := by
  intro p q hpq
  rw [outcome_ask, outcome_ask]
  exact ⟨h _ _ hpq.context, hpq⟩

/-- A reading of the context that is the same wherever it looks alike. -/
theorem ask_eq {f : Context → Except Error α}
    (h : ∀ ctx ctx', Context.Alike ctx ctx' → f ctx = f ctx') :
    Agrees Eq (Build.ask f) (Build.ask f) :=
  .ask fun ctx ctx' hctx ↦ .of_eq (h ctx ctx' hctx)

/-- Where both fail, they do so with the same error, and go on from there. -/
theorem tryCatch (h : Agrees R b b') {f : Error → Build α} {f' : Error → Build β}
    (hf : ∀ e, Agrees R (f e) (f' e)) : Agrees R (tryCatch b f) (tryCatch b' f') := by
  intro p q hpq
  obtain ⟨hresult, hprogress⟩ := h p q hpq
  rw [outcome_tryCatch, outcome_tryCatch]
  generalize outcome b p = x at hresult hprogress ⊢
  generalize outcome b' q = y at hresult hprogress ⊢
  obtain ⟨r, p'⟩ := x
  obtain ⟨r', q'⟩ := y
  cases hresult with
  | ok ha => exact ⟨.ok ha, hprogress⟩
  | error e => exact hf e p' q' hprogress

/-- What fails is undone on both sides, to the same extent. -/
theorem undoing (h : Agrees R b b') : Agrees R (undoing b) (undoing b') := by
  intro p q hpq
  obtain ⟨hresult, hprogress⟩ := h p q hpq
  -- The journals are the same, so the same entries are taken back.
  rw [outcome_undoing, outcome_undoing, hpq.journal_eq]
  generalize outcome b p = x at hresult hprogress ⊢
  generalize outcome b' q = y at hresult hprogress ⊢
  obtain ⟨r, p'⟩ := x
  obtain ⟨r', q'⟩ := y
  cases hresult with
  | ok ha => exact ⟨.ok ha, hprogress⟩
  | error e => exact ⟨.error e, hprogress.undo _⟩

/-- The same name is minted. -/
theorem mint (ns : Namespace) : Agrees Eq (mint ns) (mint ns) := by
  intro p q hpq
  rw [outcome_mint, outcome_mint, hpq.context.nextNumber_eq]
  exact ⟨.ok rfl, hpq.context.withCounter _, hpq.journal_eq⟩

/-- Objects that look alike are kept at the same place, or refused. -/
theorem keep (ns : Namespace) (name : String) {x y : Content} (h : x.Alike y) :
    Agrees Kept.Alike (keep ns name x) (keep ns name y) := by
  intro p q hpq
  rw [outcome_keep, outcome_keep, hpq.context.contains_eq, hpq.journal_eq]
  cases hfree : q.context.contains ns name with
  | true => exact ⟨.error _, hpq⟩
  | false =>
    obtain ⟨hkept, hcontext⟩ :=
      hpq.context.keep ((hpq.context.contains_eq ns name).trans hfree) h
    exact ⟨.ok hkept, hcontext, rfl⟩

end Agrees

/-! ### The functions of a construction -/

section

variable {t : Term}

/-- **What a parameter refers to looks alike**, if what is found for its value does. -/
theorem agrees_resolve {find find' : Namespace → Build Kept}
    (h : ∀ ns, Agrees Kept.Alike (find ns) (find' ns)) (kind : ParameterKind) :
    Agrees Resolved.Alike (resolve find t kind) (resolve find' t kind) := by
  have hentry : ∀ ns, Agrees Resolved.Alike (do return .entry (← find ns).link)
      (do return .entry (← find' ns).link) := fun ns ↦
    (h ns).bind fun _ _ hk ↦ .pure hk.link
  cases kind with
  | text =>
    refine (Agrees.ask_eq fun ctx ctx' hctx ↦ hctx.textOf_eq t).bind ?_
    rintro s _ rfl
    exact .pure (.same _)
  | array =>
    refine (Agrees.ask_eq fun ctx ctx' hctx ↦ hctx.textsOf_eq t).bind ?_
    rintro items _ rfl
    exact .pure (.same _)
  | entry ns => exact hentry ns
  | anyFunction =>
    refine (Agrees.ask_eq fun ctx ctx' hctx ↦ hctx.inferFamily_eq t).bind ?_
    rintro ns _ rfl
    exact hentry ns
  | anything =>
    -- What is settled is settled alike, and a definition is looked for in the same namespace.
    refine (Agrees.ask fun ctx ctx' hctx ↦ hctx.shapeOf t).bind fun s s' hs ↦ ?_
    cases hs with
    | settled hr => exact .pure hr
    | same s =>
      cases s with
      | settled r => exact .pure (.same r)
      | definition ns => exact hentry ns

/-- Prototypes are tried in the same order, and the same one is settled on. -/
theorem agrees_tryPrototypes {build build' : Component → Build Component}
    (h : ∀ c, Agrees Component.Alike (build c) (build' c)) (failure : Error)
    (ps : List Prototype) :
    Agrees Component.Alike (tryPrototypes build failure ps) (tryPrototypes build' failure ps) := by
  induction ps generalizing failure with
  | nil => exact .throw failure
  | cons p ps ih =>
    rw [tryPrototypes, tryPrototypes]
    exact (h p.instantiate).undoing.tryCatch ih

/-- A definition is built into components that look alike. -/
theorem agrees_component {populate populate' : Component → Build Component}
    (h : ∀ c, Agrees Component.Alike (populate c) (populate' c)) (ns : Namespace) (t : Term) :
    Agrees Component.Alike (component populate ns t) (component populate' ns t) := by
  cases t with
  | call name parameters internal =>
    have hfill : ∀ c, Agrees Component.Alike (fill populate internal c)
        (fill populate' internal c) := fun c ↦
      (h c).bind fun _ _ hd ↦ .pure (hd.withInternal internal)
    refine (Agrees.ask_eq fun ctx ctx' hctx ↦ hctx.checkFamily_eq ns _).bind ?_
    rintro _ _ rfl
    refine (Agrees.ask_eq fun ctx ctx' hctx ↦ by rw [hctx.factories_eq]).bind ?_
    rintro ps _ rfl
    exact agrees_tryPrototypes hfill _ ps
  | _ => exact .throw _

/-- What an entry is to hold looks alike. -/
theorem agrees_content {populate populate' : Component → Build Component}
    (h : ∀ c, Agrees Component.Alike (populate c) (populate' c)) (t : Term) (ns : Namespace) :
    Agrees Content.Alike (content populate t ns) (content populate' t ns) := by
  cases ns with
  | array =>
    refine (Agrees.ask_eq fun ctx ctx' hctx ↦ hctx.textsOf_eq t).bind ?_
    rintro items _ rfl
    exact .pure (.same _)
  | value =>
    refine (Agrees.ask_eq fun ctx ctx' hctx ↦ hctx.textOf_eq t).bind ?_
    rintro s _ rfl
    exact .pure (.same _)
  | ruleSet =>
    refine (Agrees.liftM (.of_eq rfl)).bind ?_
    rintro s _ rfl
    exact .pure (.same _)
  | _ => exact (agrees_component h _ t).bind fun _ _ hc ↦ .pure (.component hc.toTerm_eq)

/-- The entries that are matched look alike, and so does what is built where there is none. -/
theorem agrees_matchOr {b b' : Build Kept} (h : Agrees Kept.Alike b b') (t : Term)
    (ns : Namespace) : Agrees Kept.Alike (matchOr t ns b) (matchOr t ns b') := by
  refine (Agrees.ask fun ctx ctx' hctx ↦ hctx.singleMatch ns t).bind fun k? l? hk ↦ ?_
  cases hk with
  | none => exact h
  | some hk => exact .pure hk

/-- A definition is found, or kept under the same number. -/
theorem agrees_findOrKeep {populate populate' : Component → Build Component}
    (h : ∀ c, Agrees Component.Alike (populate c) (populate' c)) (t : Term) (ns : Namespace) :
    Agrees Kept.Alike (findOrKeep populate t ns) (findOrKeep populate' t ns) := by
  refine agrees_matchOr ((Agrees.mint ns).bind ?_) t ns
  rintro name _ rfl
  exact (agrees_content h t ns).bind fun _ _ hx ↦ agrees_matchOr (.keep ns name hx) t ns

end

/-! ### The recursion -/

mutual

/-- **Definitions are found or built alike in contexts that look alike.** -/
theorem agrees_findOrBuild : (t : Term) → (ns : Namespace) →
    Agrees Kept.Alike (findOrBuild t ns) (findOrBuild t ns)
  | .reference name, ns => by
    rw [findOrBuild]
    exact .ask fun ctx ctx' hctx ↦ hctx.referred ns name
  | .call name ⟨es, form⟩ internal, ns => by
    rw [findOrBuild]
    refine agrees_findOrKeep (fun c ↦ ?_) _ ns
    exact agrees_populate name c.names 0 es (.refl c)
  | .text _, ns | .capture _, ns | .array _, ns | .listing _, ns | .rule _ _, ns => by
    rw [findOrBuild_of_data]
    · exact agrees_findOrKeep (fun c ↦ .pure (.refl c)) _ ns
    · rfl
    · nofun

/-- Parameters are set alike on components that look alike. -/
theorem agrees_populate (generic : String) (names : List String) (index : Nat) :
    (es : List (Entry Term)) → {c d : Component} → c.Alike d →
      Agrees Component.Alike (populate generic names index es c) (populate generic names index es d)
  | [], c, d, h => by
    rw [populate, populate]
    exact .pure h
  | ⟨label, modifiers, t⟩ :: es, c, d, h => by
    rw [populate, populate]
    refine (Agrees.liftM (.of_eq rfl)).bind ?_
    rintro name _ rfl
    refine (Agrees.liftM (.of_eq ?_)).bind ?_
    -- What kind a parameter has is up to the schema and to the names that are set already.
    · rw [parameterKind, parameterKind, h.kind?_eq]
    rintro kind _ rfl
    refine (agrees_resolve (fun ns ↦ agrees_findOrBuild t ns) kind).bind fun r r' hr ↦ ?_
    have hargument : Argument.Alike ⟨t, r⟩ ⟨t, r'⟩ := ⟨rfl, hr⟩
    refine (Agrees.liftM (h.set hargument name)).bind fun c' d' hset ↦ ?_
    exact agrees_populate generic names (index + 1) es hset

end

/-- The parameters of a definition are set alike. -/
theorem agrees_populateFrom (t : Term) (c : Component) :
    Agrees Component.Alike (populateFrom t c) (populateFrom t c) := by
  cases t with
  | call name parameters _ => exact agrees_populate name c.names 0 parameters.entries (.refl c)
  | _ => exact .pure (.refl c)

/-- **New entries are built alike in contexts that look alike.** -/
theorem agrees_construct (ns : Namespace) (name? : Option String) (t : Term) :
    Agrees Kept.Alike (construct ns name? t) (construct ns name? t) := by
  have hname : Agrees Eq (nameFor ns name?) (nameFor ns name?) := by
    cases name? with
    | none => exact .mint ns
    | some name =>
      exact (Agrees.ask_eq fun ctx ctx' hctx ↦ hctx.checkFree_eq ns name).bind fun _ _ _ ↦ .pure rfl
  refine hname.bind ?_
  rintro name _ rfl
  exact (agrees_content (agrees_populateFrom t) t ns).bind fun _ _ hx ↦ .keep ns name hx

end Build

/-! ### Operations -/

namespace Context

/-- Computations that agree do so as whole operations. -/
theorem Alike.perform {ctx ctx' : Context} (h : Alike ctx ctx') {α : Type} {R : α → α → Prop}
    {b : Build α} (hb : b.Agrees R b) :
    Agree R (ctx.perform b).result (ctx'.perform b).result ∧
      Alike (ctx.perform b).context (ctx'.perform b).context := by
  obtain ⟨hresult, hprogress⟩ := hb.undoing ⟨ctx, []⟩ ⟨ctx', []⟩ ⟨h, rfl⟩
  refine ⟨?_, hprogress.context⟩
  show Agree R (Reported.of _).result (Reported.of _).result
  rw [Reported.result_of, Reported.result_of]
  exact hresult

end Context

end TermRegistry
