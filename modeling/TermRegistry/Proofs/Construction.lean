import TermRegistry.Proofs.Building

/-!
# What a construction does

`Build.Meets b Q` says of a computation that it only lets the context grow and journals exactly the
entries it keeps, whether it succeeds or fails, and that `Q` relates the context before, the result
and the context after wherever it succeeds. There is one lemma for each way of putting computations
together and one for each function of the construction; the recursion of `findOrBuild` and
`populate` is met by one mutual induction.

**Undoing.** The journal is what makes a computation reversible: `Build.undoing` takes back the
entries journaled since it began, and because a computation that meets anything journals all it
keeps, a failing one leaves the context raised and nothing else.
-/

namespace TermRegistry

namespace Build

variable {α β : Type}

/-- The result of a computation, and the progress afterwards. -/
def outcome (b : Build α) (p : Progress) : Except Error α × Progress := b.run.run p

/-! ### Outcomes -/

section

variable (p : Progress)

/-- A sequence stops at the first failure. -/
theorem outcome_bind (b : Build α) (f : α → Build β) : outcome (b >>= f) p =
    match outcome b p with
    | (.ok a, q) => outcome (f a) q
    | (.error e, q) => (.error e, q) := by
  show ExceptT.bindCont f (outcome b p).1 (outcome b p).2 = _
  obtain ⟨r, q⟩ := outcome b p
  cases r <;> rfl

/-- After a success the sequence goes on with its result. -/
theorem outcome_bind_ok {b : Build α} {p q : Progress} {a : α} (h : outcome b p = (.ok a, q))
    (f : α → Build β) : outcome (b >>= f) p = outcome (f a) q := by
  rw [outcome_bind, h]

/-- A failure is caught with what it has left behind. -/
theorem outcome_tryCatch (b : Build α) (f : Error → Build α) :
    outcome (tryCatch b f) p =
      match outcome b p with
      | (.ok a, q) => (.ok a, q)
      | (.error e, q) => outcome (f e) q := by
  simp only [outcome, tryCatch, tryCatchThe, MonadExceptOf.tryCatch, ExceptT.tryCatch, ExceptT.run,
    ExceptT.mk, bind, StateT.bind, StateT.run]
  obtain ⟨r, q⟩ := b p
  cases r <;> rfl

theorem outcome_liftM (r : Except Error α) : outcome (liftM r : Build α) p = (r, p) := by
  cases r <;> rfl

theorem outcome_ask (f : Context → Except Error α) : outcome (ask f) p = (f p.context, p) :=
  outcome_liftM p (f p.context)

/-- Minting raises the counter above the number that is minted. -/
theorem outcome_mint (ns : Namespace) : outcome (mint ns) p =
    (.ok (p.context.nextNumber ns).repr,
      { p with context := p.context.withCounter (p.context.nextNumber ns + 1) }) := rfl

/-- An object is kept and journaled if its name is free. -/
theorem outcome_keep (ns : Namespace) (name : String) (x : Content) :
    outcome (keep ns name x) p =
      if p.context.contains ns name then (.error (.duplicateName ns.tag name), p)
      else (.ok (p.context.keep ns name x).1,
        ⟨(p.context.keep ns name x).2, p.journal ++ [(ns, name)]⟩) := by
  rw [keep, outcome_bind]
  show outcome (if p.context.contains ns name = true then _ else _) p = _
  split <;> rfl

/-- The entry that is matched is handed out; what else is to be done is done if there is none. -/
theorem outcome_matchOr (t : Term) (ns : Namespace) (b : Build Kept) :
    outcome (matchOr t ns b) p =
      match p.context.singleMatch ns t with
      | .ok (some k) => (.ok k, p)
      | .ok none => outcome b p
      | .error e => (.error e, p) := by
  rw [matchOr, outcome_bind, outcome_ask]
  rcases p.context.singleMatch ns t with e | - | k <;> rfl

/-- A failure is taken back to the length that the journal had before. -/
theorem outcome_undoing (b : Build α) : outcome (undoing b) p =
    match outcome b p with
    | (.ok a, q) => (.ok a, q)
    | (.error e, q) => (.error e, q.undo p.journal.length) := by
  show outcome (tryCatch b fun e ↦ do
    modify (·.undo p.journal.length)
    throw e) p = _
  rw [outcome_tryCatch]
  rfl

end

/-! ### Computations that only let a context grow -/

/-- **What a computation does**: on a coherent context it lets the context grow, by the entries it
journals, and where it succeeds the condition `Q` holds of the context before, the result and the
context after. -/
def Meets (b : Build α) (Q : Context → α → Context → Prop) : Prop :=
  ∀ p : Progress, p.context.Coherent → ∃ js,
    (outcome b p).2.journal = p.journal ++ js ∧ p.context.Grows js (outcome b p).2.context ∧
      ∀ a, (outcome b p).1 = .ok a → Q p.context a (outcome b p).2.context

namespace Meets

variable {b : Build α} {f : α → Build β} {Q Q' : Context → α → Context → Prop}
  {R : α → Context → β → Context → Prop}

/-- What a computation meets may be weakened. -/
theorem mono (h : Meets b Q) (hQ : ∀ ctx a ctx', Q ctx a ctx' → Q' ctx a ctx') : Meets b Q' := by
  intro p hp
  obtain ⟨js, hjournal, hgrows, ha⟩ := h p hp
  exact ⟨js, hjournal, hgrows, fun a hok ↦ hQ _ _ _ (ha a hok)⟩

/-- Computations that do not change the context. -/
theorem of_reading (h : ∀ p, (outcome b p).2 = p)
    (hQ : ∀ p a, (outcome b p).1 = .ok a → Q p.context a p.context) : Meets b Q := by
  intro p _
  refine ⟨[], ?_, ?_, fun a hok ↦ ?_⟩
  · rw [h, List.append_nil]
  · rw [h]
    exact .refl _
  · rw [h]
    exact hQ p a hok

theorem pure (a : α) : Meets (pure a) fun ctx a' ctx' ↦ a' = a ∧ ctx' = ctx :=
  of_reading (fun _ ↦ rfl) fun _ _ hok ↦ ⟨(Except.ok.inj hok).symm, rfl⟩

/-- What fails meets anything. -/
theorem throw (e : Error) : Meets (throw e : Build α) Q :=
  of_reading (fun _ ↦ rfl) fun _ _ hok ↦ by cases hok

theorem liftM (r : Except Error α) : Meets (liftM r) fun ctx a ctx' ↦ r = .ok a ∧ ctx' = ctx :=
  of_reading (fun p ↦ by rw [outcome_liftM]) fun p a hok ↦ by
    rw [outcome_liftM] at hok
    exact ⟨hok, rfl⟩

/-- Asking the context leaves it as it is. -/
theorem ask (f : Context → Except Error α) :
    Meets (ask f) fun ctx a ctx' ↦ f ctx = .ok a ∧ ctx' = ctx :=
  of_reading (fun p ↦ by rw [outcome_ask]) fun p a hok ↦ by
    rw [outcome_ask] at hok
    exact ⟨hok, rfl⟩

/-- **Two computations in sequence**: the second one starts from what the first one has left. -/
theorem bind (h : Meets b Q) (hf : ∀ ctx a ctx', Q ctx a ctx' → Meets (f a) (R a)) :
    Meets (b >>= f) fun ctx c ctx'' ↦ ∃ a ctx', Q ctx a ctx' ∧ R a ctx' c ctx'' := by
  intro p hp
  obtain ⟨js, hjournal, hgrows, hQ⟩ := h p hp
  rw [outcome_bind]
  generalize outcome b p = x at hjournal hgrows hQ ⊢
  obtain ⟨e | a, q⟩ := x
  -- What the first step has kept stays journaled if it fails; the second one goes on from there.
  · exact ⟨js, hjournal, hgrows, nofun⟩
  · obtain ⟨ks, hjournal', hgrows', hR⟩ := hf _ a _ (hQ a rfl) q (hgrows.coherent hp)
    refine ⟨js ++ ks, ?_, hgrows.trans hgrows', fun c hok ↦ ⟨a, q.context, hQ a rfl, hR c hok⟩⟩
    show (outcome (f a) q).2.journal = _
    rw [hjournal', hjournal, List.append_assoc]

/-- A sequence whose first step only reads the context. -/
theorem bind_reading {P : Context → α → Prop} (h : Meets b fun ctx a ctx' ↦ P ctx a ∧ ctx' = ctx)
    (hf : ∀ a, Meets (f a) (R a)) :
    Meets (b >>= f) fun ctx c ctx' ↦ ∃ a, P ctx a ∧ R a ctx c ctx' := by
  refine (h.bind fun _ a _ _ ↦ hf a).mono ?_
  rintro ctx c ctx'' ⟨a, _, ⟨ha, rfl⟩, hR⟩
  exact ⟨a, ha, hR⟩

/-- A name is minted by raising the counter. -/
theorem mint (ns : Namespace) : Meets (mint ns) fun ctx name ctx' ↦
    name = (ctx.nextNumber ns).repr ∧ ctx' = ctx.withCounter (ctx.nextNumber ns + 1) := by
  intro p _
  rw [outcome_mint]
  exact ⟨[], (List.append_nil _).symm, .raised (.mint _ ns),
    fun _ hok ↦ ⟨(Except.ok.inj hok).symm, rfl⟩⟩

/-- **An object is kept only under a free name**, and in a namespace that it suits. -/
theorem keep (ns : Namespace) (name : String) {x : Content} (hx : x.suits ns = true) :
    Meets (keep ns name x) fun ctx k ctx' ↦
      ctx.contains ns name = false ∧ (k, ctx') = ctx.keep ns name x := by
  intro p _
  rw [outcome_keep]
  cases hfree : p.context.contains ns name with
  | true => exact ⟨[], (List.append_nil _).symm, .refl _, nofun⟩
  | false =>
    refine ⟨[(ns, name)], rfl, .kept (.refl _) hfree hx (.refl _), fun k hok ↦ ⟨hfree, ?_⟩⟩
    rw [← Except.ok.inj hok]
    rfl

/-- **A failing computation is taken back.** -/
theorem raised_of_error (h : Meets b Q) {p : Progress} (hp : p.context.Coherent) {e : Error}
    (he : (outcome (undoing b) p).1 = .error e) :
    (outcome (undoing b) p).2.journal = p.journal ∧
      p.context.Raised (outcome (undoing b) p).2.context := by
  obtain ⟨js, hjournal, hgrows, -⟩ := h p hp
  rw [outcome_undoing] at he ⊢
  generalize outcome b p = x at hjournal hgrows he ⊢
  obtain ⟨e | a, q⟩ := x
  -- The journal has grown by what was kept, so undoing back to its old length takes back just that.
  · refine ⟨?_, ?_⟩
    · show q.journal.take p.journal.length = p.journal
      rw [hjournal, List.take_left]
    · show p.context.Raised ((q.journal.drop p.journal.length).foldr _ q.context)
      rw [hjournal, List.drop_left]
      exact hgrows.undo hp
  · cases he

/-- A computation that is undone if it fails meets what it met before. -/
theorem undoing (h : Meets b Q) : Meets (undoing b) Q := by
  intro p hp
  cases hr : (outcome (Build.undoing b) p).1 with
  | error e =>
    obtain ⟨hjournal, hraised⟩ := h.raised_of_error hp hr
    exact ⟨[], by rw [hjournal, List.append_nil], .raised hraised, nofun⟩
  | ok a =>
    have hb := h p hp
    rw [← hr]
    rw [outcome_undoing] at hr ⊢
    generalize outcome b p = x at hb hr ⊢
    obtain ⟨e | a, q⟩ := x
    · cases hr
    · exact hb

/-- A computation that is undone if it fails, and then another one. -/
theorem orElse {R : Context → α → Context → Prop} (h : Meets b Q) {f : Error → Build α}
    (hf : ∀ e, Meets (f e) R) :
    Meets (tryCatch (Build.undoing b) f) fun ctx a ctx' ↦
      Q ctx a ctx' ∨ ∃ ctx₁, ctx.Raised ctx₁ ∧ R ctx₁ a ctx' := by
  intro p hp
  rw [outcome_tryCatch]
  have hundoing := h.undoing p hp
  have herror := fun e ↦ h.raised_of_error (e := e) hp
  generalize outcome (Build.undoing b) p = x at hundoing herror ⊢
  obtain ⟨e | a, q⟩ := x
  -- The other computation starts from a context that is raised and nothing else.
  · obtain ⟨hjournal, hraised⟩ := herror e rfl
    obtain ⟨js, hjs, hgrows, hR⟩ := hf e q (hraised.coherent hp)
    exact ⟨js, hjs.trans (congrArg (· ++ js) hjournal), .trans (.raised hraised) hgrows,
      fun a hok ↦ .inr ⟨q.context, hraised, hR a hok⟩⟩
  · obtain ⟨js, hjs, hgrows, hQ⟩ := hundoing
    exact ⟨js, hjs, hgrows, fun a hok ↦ .inl (hQ a hok)⟩

end Meets

/-! ### The functions of a construction -/

/-- A reading of the context whose result is used as it is. -/
theorem meets_map_ask (f : Context → Except Error α) (g : α → β) :
    Meets (do return g (← ask f)) fun ctx c ctx' ↦ ∃ a, f ctx = .ok a ∧ c = g a ∧ ctx' = ctx :=
  (Meets.ask f).bind_reading fun a ↦ .pure (g a)

/-- One of some prototypes accepts, and those before it have only raised the context. -/
theorem meets_tryPrototypes {build : Component → Build Component}
    {Q : Component → Context → Component → Context → Prop} (h : ∀ c, Meets (build c) (Q c))
    (failure : Error) (ps : List Prototype) :
    Meets (tryPrototypes build failure ps) fun ctx c ctx' ↦
      ∃ p ∈ ps, ∃ ctx₁, ctx.Raised ctx₁ ∧ Q p.instantiate ctx₁ c ctx' := by
  induction ps generalizing failure with
  | nil => exact .throw failure
  | cons p ps ih =>
    rw [tryPrototypes]
    refine (Meets.orElse (h p.instantiate) ih).mono ?_
    rintro ctx c ctx' (hc | ⟨ctx₁, hraised, q, hq, ctx₂, hraised', hc⟩)
    · exact ⟨p, List.mem_cons_self, ctx, .refl ctx, hc⟩
    · exact ⟨q, List.mem_cons_of_mem p hq, ctx₂, hraised.trans hraised', hc⟩

section

variable {t : Term} {ns : Namespace}

/-- What setting the parameters of a term has to do: what the parameters of a call ask for. -/
def Populates (populate : Component → Build Component) (t : Term) : Prop :=
  ∀ name parameters internal, t = .call name parameters internal → ∀ c,
    Meets (populate c) fun ctx c' ctx' ↦
      Builds ctx (.parameters name c.names 0 parameters.entries c c') ctx'

/-- A definition is built into a component by one of the prototypes of its name. -/
theorem meets_component {populate : Component → Build Component} (h : Populates populate t)
    (hns : ns ∉ [.ruleSet, .array, .value]) :
    Meets (component populate ns t) fun ctx c ctx' ↦
      Builds ctx (.content t ns (.component c)) ctx' := by
  cases t with
  | call name parameters internal =>
    -- For any one prototype, what is done is to set the parameters and to add the internal listing.
    have hfill : ∀ c, Meets (fill populate internal c) fun ctx c' ctx' ↦ ∃ d,
        Builds ctx (.parameters name c.names 0 parameters.entries c d) ctx' ∧
          c' = d.withInternal internal := by
      intro c
      refine ((h name parameters internal rfl c).bind fun _ d _ _ ↦ .pure _).mono ?_
      rintro ctx c' _ ⟨d, ctx', hd, rfl, rfl⟩
      exact ⟨d, hd, rfl⟩
    refine ((Meets.ask _).bind_reading fun _ ↦
      (Meets.ask _).bind_reading fun ps ↦ meets_tryPrototypes hfill _ ps).mono ?_
    rintro ctx c ctx' ⟨_, hfamily, _, hps, p, hp, ctx₁, hraised, d, hd, rfl⟩
    cases hps
    exact .component hns hfamily hp hraised hd
  | _ => exact .throw _

/-- What an entry holds is built as its namespace asks. -/
theorem meets_content {populate : Component → Build Component} (h : Populates populate t) :
    Meets (content populate t ns) fun ctx x ctx' ↦ Builds ctx (.content t ns x) ctx' := by
  cases ns with
  | array =>
    refine (meets_map_ask _ Content.texts).mono ?_
    rintro ctx _ _ ⟨items, hitems, rfl, rfl⟩
    exact .array hitems
  | value =>
    refine (meets_map_ask _ Content.text).mono ?_
    rintro ctx _ _ ⟨s, hs, rfl, rfl⟩
    exact .value hs
  | ruleSet =>
    refine ((Meets.liftM _).bind_reading fun s ↦ .pure _).mono ?_
    rintro ctx _ _ ⟨s, hs, rfl, rfl⟩
    exact .ruleSet hs
  | _ =>
    refine ((meets_component h (by decide)).bind fun _ c _ _ ↦ .pure _).mono ?_
    rintro ctx _ _ ⟨c, ctx', hc, rfl, rfl⟩
    exact hc

/-- An entry is matched, or what is built in its place counts. -/
theorem meets_matchOr {b : Build Kept} {Q : Context → Kept → Context → Prop} (h : Meets b Q) :
    Meets (matchOr t ns b) fun ctx k ctx' ↦
      ctx.singleMatch ns t = .ok (some k) ∧ ctx' = ctx ∨
        ctx.singleMatch ns t = .ok none ∧ Q ctx k ctx' := by
  -- What the second step does depends on what the first one has found.
  let R (k? : Option Kept) (ctx : Context) (k : Kept) (ctx' : Context) : Prop :=
    k? = some k ∧ ctx' = ctx ∨ k? = none ∧ Q ctx k ctx'
  refine ((Meets.ask _).bind_reading (R := R) fun k? ↦ ?_).mono ?_
  · cases k? with
    | none => exact h.mono fun ctx k ctx' hQ ↦ .inr ⟨rfl, hQ⟩
    | some k =>
      refine (Meets.pure k).mono ?_
      rintro ctx _ _ ⟨rfl, rfl⟩
      exact .inl ⟨rfl, rfl⟩
  · rintro ctx k ctx' ⟨k?, hk?, ⟨rfl, rfl⟩ | ⟨rfl, hQ⟩⟩
    · exact .inl ⟨hk?, rfl⟩
    · exact .inr ⟨hk?, hQ⟩

/-- A definition that is no reference is matched, matched later, or made. -/
theorem meets_findOrKeep {populate : Component → Build Component} (h : Populates populate t)
    (ht : t.reference? = none) :
    Meets (findOrKeep populate t ns) fun ctx k ctx' ↦ Builds ctx (.entry t ns k) ctx' := by
  have hcontent : Meets (content populate t ns) _ := meets_content h
  refine (meets_matchOr ((Meets.mint ns).bind fun _ name _ _ ↦ hcontent.bind fun _ x _ hx ↦
    meets_matchOr (.keep ns name hx.suits))).mono ?_
  rintro ctx k ctx' (⟨hk, rfl⟩ | ⟨hnone, _, _, ⟨rfl, rfl⟩, x, ctx₂, hx, hlast⟩)
  · exact .matched ht hk
  · obtain ⟨hk, rfl⟩ | ⟨hnone', hfree, hkeep⟩ := hlast
    · exact .matchedLater ht hnone hx hk
    · obtain ⟨rfl, rfl⟩ := Prod.ext_iff.1 hkeep
      exact .made ht hnone hx hnone' hfree

/-- Values are resolved as their kind says. -/
theorem meets_resolve {find : Namespace → Build Kept}
    (h : ∀ ns, Meets (find ns) fun ctx k ctx' ↦ Builds ctx (.entry t ns k) ctx')
    (kind : ParameterKind) :
    Meets (resolve find t kind) fun ctx r ctx' ↦ Builds ctx (.argument t kind r) ctx' := by
  cases kind with
  | text =>
    refine (meets_map_ask _ fun s ↦ Resolved.literal (.text s)).mono ?_
    rintro ctx _ _ ⟨s, hs, rfl, rfl⟩
    exact .text hs
  | array =>
    refine (meets_map_ask _ fun items ↦ Resolved.literal (.texts items)).mono ?_
    rintro ctx _ _ ⟨items, hitems, rfl, rfl⟩
    exact .texts hitems
  | entry ns =>
    refine ((h ns).bind fun _ k _ _ ↦ .pure _).mono ?_
    rintro ctx _ _ ⟨k, ctx', hk, rfl, rfl⟩
    exact .entry hk
  | anyFunction =>
    refine ((Meets.ask _).bind_reading fun ns ↦ (h ns).bind fun _ k _ _ ↦ .pure _).mono ?_
    rintro ctx _ _ ⟨ns, hns, k, ctx', hk, rfl, rfl⟩
    exact .function hns hk
  | anything =>
    let R (shape : Context.Shape) (ctx : Context) (r : Resolved) (ctx' : Context) : Prop :=
      shape = .settled r ∧ ctx' = ctx ∨
        ∃ ns k, shape = .definition ns ∧ Builds ctx (.entry t ns k) ctx' ∧ r = .entry k.link
    refine ((Meets.ask _).bind_reading (R := R) fun shape ↦ ?_).mono ?_
    · cases shape with
      | settled r =>
        refine (Meets.pure r).mono ?_
        rintro ctx _ _ ⟨rfl, rfl⟩
        exact .inl ⟨rfl, rfl⟩
      | definition ns =>
        refine ((h ns).bind fun _ k _ _ ↦ .pure _).mono ?_
        rintro ctx _ _ ⟨k, ctx', hk, rfl, rfl⟩
        exact .inr ⟨ns, k, rfl, hk, rfl⟩
    · rintro ctx r ctx' ⟨_, hshape, ⟨rfl, rfl⟩ | ⟨ns, k, rfl, hk, rfl⟩⟩
      · exact .settled hshape
      · exact .definition hshape hk

end

/-! ### The recursion -/

/-- A definition that is neither a reference nor a call has no parameters to set. -/
theorem findOrBuild_of_data {t : Term} (ht : t.reference? = none)
    (hcall : ∀ name parameters internal, t ≠ .call name parameters internal) (ns : Namespace) :
    findOrBuild t ns = findOrKeep pure t ns := by
  cases t with
  | reference name => cases ht
  | call name parameters internal => exact absurd rfl (hcall name parameters internal)
  | text | capture | array | listing | rule => rw [findOrBuild] <;> nofun

/-- A definition that is no reference is matched, or else built and kept. -/
theorem findOrBuild_eq {t : Term} (ht : t.reference? = none) (ns : Namespace) :
    findOrBuild t ns = findOrKeep (populateFrom t) t ns := by
  cases t with
  | reference name => cases ht
  | call name parameters internal =>
    rw [findOrBuild]
    rfl
  | _ =>
    refine findOrBuild_of_data rfl ?_ ns
    nofun

mutual

/-- **Definitions are found or built without a trace of what failed on the way.** -/
theorem meets_findOrBuild : (t : Term) → (ns : Namespace) →
    Meets (findOrBuild t ns) fun ctx k ctx' ↦ Builds ctx (.entry t ns k) ctx'
  | .reference name, ns => by
    rw [findOrBuild]
    refine (Meets.ask _).mono ?_
    rintro ctx k _ ⟨hk, rfl⟩
    rw [Context.referred] at hk
    split at hk
    · next k' hk' =>
      cases hk
      exact .referred hk'
    · cases hk
  | .call name ⟨es, form⟩ internal, ns => by
    -- The entries are seen to be smaller here, where they are still parts of the call.
    have hpopulate : ∀ c : Component, Meets (populate name c.names 0 es c) _ := fun c ↦
      meets_populate name c.names 0 es c
    rw [findOrBuild]
    refine meets_findOrKeep ?_ rfl
    rintro _ _ _ ⟨rfl, rfl, rfl⟩ c
    exact hpopulate c
  | .text _, ns | .capture _, ns | .array _, ns | .listing _, ns | .rule _ _, ns => by
    rw [findOrBuild_of_data]
    · exact meets_findOrKeep nofun rfl
    · rfl
    · nofun

/-- Parameters are set one after the other. -/
theorem meets_populate (generic : String) (names : List String) (index : Nat) :
    (es : List (Entry Term)) → (c : Component) →
      Meets (populate generic names index es c) fun ctx c' ctx' ↦
        Builds ctx (.parameters generic names index es c c') ctx'
  | [], c => by
    rw [populate]
    refine (Meets.pure c).mono ?_
    rintro ctx _ _ ⟨rfl, rfl⟩
    exact .noParameters
  | ⟨label, modifiers, t⟩ :: es, c => by
    have hfind : ∀ ns, Meets (findOrBuild t ns) _ := fun ns ↦ meets_findOrBuild t ns
    have hrest : ∀ c, Meets (populate generic names (index + 1) es c) _ := fun c ↦
      meets_populate generic names (index + 1) es c
    rw [populate]
    refine ((Meets.liftM _).bind_reading fun name ↦ (Meets.liftM _).bind_reading fun kind ↦
      (meets_resolve hfind kind).bind fun _ r _ _ ↦ (Meets.liftM _).bind_reading fun c' ↦
        hrest c').mono ?_
    rintro ctx c'' ctx'' ⟨name, hname, kind, hkind, r, ctx', hr, c', hset, h⟩
    exact .parameter hname hkind hr hset h

end

/-- Setting the parameters of a term does what is asked for. -/
theorem populates_populateFrom (t : Term) : Populates (populateFrom t) t := by
  rintro name parameters internal rfl c
  exact meets_populate name c.names 0 parameters.entries c

/-- **New entries are built without a trace of what failed on the way.** -/
theorem meets_construct (ns : Namespace) (name? : Option String) (t : Term) :
    Meets (construct ns name? t) fun ctx k ctx' ↦ Builds ctx (.new ns name? t k) ctx' := by
  have hcontent : Meets (content (populateFrom t) t ns) _ :=
    meets_content (populates_populateFrom t)
  have hlast : ∀ name, Meets (do Build.keep ns name (← content (populateFrom t) t ns)) _ :=
    fun name ↦ hcontent.bind fun _ x _ hx ↦ .keep ns name hx.suits
  cases name? with
  | some name =>
    refine (((Meets.ask _).bind_reading fun _ ↦ .pure name).bind fun _ n _ _ ↦ hlast n).mono ?_
    rintro ctx k ctx' ⟨_, _, ⟨_, hcheck, rfl, rfl⟩, x, ctx₂, hx, hfree', hkeep⟩
    obtain ⟨rfl, rfl⟩ := Prod.ext_iff.1 hkeep
    -- The name is checked twice, before anything is built and when the entry is kept.
    refine .named ?_ hx hfree'
    rw [Context.checkFree] at hcheck
    split at hcheck
    · cases hcheck
    · next hfree => exact Bool.eq_false_iff.2 hfree
  | none =>
    refine ((Meets.mint ns).bind fun _ n _ _ ↦ hlast n).mono ?_
    rintro ctx k ctx' ⟨_, _, ⟨rfl, rfl⟩, x, ctx₂, hx, hfree, hkeep⟩
    obtain ⟨rfl, rfl⟩ := Prod.ext_iff.1 hkeep
    exact .numbered hx hfree

end Build

end TermRegistry
