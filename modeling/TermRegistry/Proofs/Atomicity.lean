import TermRegistry.Proofs.Reachable

/-!
# Failed constructions leave no trace

Construction is recursive and tries prototypes in turn, so a call that fails may have kept entries
at any depth before. All of them are taken back, those that were there before stay, and only the
numbers used up are gone. Loading stops at the first statement that fails and keeps what the
statements before it declared.

Inside a call that succeeds the same happens with every prototype that rejects a definition: the
call is a course of construction in the sense of `Builds`, in which the prototype that accepts a
definition starts from the context that the definition found, raised and nothing else.
-/

namespace TermRegistry

namespace Context

/-- **A context is untouched** if its order, the names and the objects of every namespace are what
they were, and its counter is at least what it was. -/
structure Untouched (ctx ctx' : Context) : Prop where
  order_eq : ctx'.order = ctx.order
  names_eq : ∀ ns, ctx'.names ns = ctx.names ns
  objects_eq : ∀ ns, (ctx'.registry.keeper ns).objects = (ctx.registry.keeper ns).objects
  counter_le : ctx.counter ≤ ctx'.counter

variable {ctx ctx' : Context}

theorem Raised.untouched (h : Raised ctx ctx') : Untouched ctx ctx' where
  order_eq := h.order_eq
  names_eq ns := congrArg Keeper.names (h.keeper_eq ns)
  objects_eq ns := congrArg Keeper.objects (h.keeper_eq ns)
  counter_le := h.counter_le

/-- **A trial that fails leaves the context untouched**: setting the parameters of a fresh
component, undone when it fails, is what is tried with each prototype. -/
theorem untouched_of_trial {p : Progress} (hp : p.context.Coherent) {name : String}
    {es : List (Entry Term)} {internal : Option (List (Entry Term))} {c : Component} {e : Error}
    (he : (Build.outcome (Build.undoing (Build.fill
      (fun c ↦ Build.populate name c.names 0 es c) internal c)) p).1 = .error e) :
    Untouched p.context (Build.outcome (Build.undoing (Build.fill
      (fun c ↦ Build.populate name c.names 0 es c) internal c)) p).2.context := by
  have hpopulate := Build.meets_populate name c.names 0 es c
  have hfill := hpopulate.bind fun _ d _ _ ↦ Build.Meets.pure (d.withInternal internal)
  exact (hfill.raised_of_error hp he).2.untouched

/-- **Failed construction is atomic.** A call that fails leaves the context untouched; a text that
cannot be read changes nothing at all, and one whose statements fail leaves what the statements
before the failing one have declared. A call that succeeds is a course of construction without a
trace of the prototypes that rejected a definition, and so is every statement of a text that is
loaded; each trial of a prototype, wherever it is made, leaves the context untouched if it fails. -/
theorem Reachable.atomic (h : ctx.Reachable) :
    (∀ ns name? t e, (ctx.construct ns name? t).result = .error e →
      Untouched ctx (ctx.construct ns name? t).context) ∧
    (∀ ns t e, (ctx.getOrConstruct ns t).result = .error e →
      Untouched ctx (ctx.getOrConstruct ns t).context) ∧
    (∀ text e, Listing.parseStatements text = .error e →
      (ctx.load text).result = .error e ∧ (ctx.load text).context = ctx) ∧
    (∀ text l e, Listing.parseStatements text = .ok l → (ctx.load text).result = .error e →
      ∃ done s rest, l.entries = done ++ s :: rest ∧ (ctx.declareAll done).result = .ok () ∧
        ((ctx.declareAll done).context.declare s).result = .error e ∧
          Untouched (ctx.declareAll done).context (ctx.load text).context) ∧
    (∀ ns name? t k, (ctx.construct ns name? t).result = .ok k →
      Builds ctx (.new ns name? t k) (ctx.construct ns name? t).context) ∧
    (∀ ns t k, (ctx.getOrConstruct ns t).result = .ok k →
      Builds ctx (.entry t ns k) (ctx.getOrConstruct ns t).context) ∧
    (∀ text l, Listing.parseStatements text = .ok l → (ctx.load text).result = .ok () →
      Declares ctx l.entries (ctx.load text).context) ∧
    (∀ (p : Progress) name es internal c e, p.context.Coherent →
      (Build.outcome (Build.undoing (Build.fill
        (fun c ↦ Build.populate name c.names 0 es c) internal c)) p).1 = .error e →
      Untouched p.context (Build.outcome (Build.undoing (Build.fill
        (fun c ↦ Build.populate name c.names 0 es c) internal c)) p).2.context) := by
  have hc := h.coherent
  refine ⟨fun ns name? t e he ↦ ?_, fun ns t e he ↦ ?_, fun text e he ↦ load_of_parse_error he,
    fun text l e hl he ↦ ?_, fun ns name? t k hk ↦ ?_, fun ns t k hk ↦ ?_, fun text l hl hok ↦ ?_,
    fun p name es internal c e hp he ↦ untouched_of_trial hp he⟩
  · exact (perform_error (Build.meets_construct ns name? t) hc he).untouched
  · exact (perform_error (Build.meets_findOrBuild t ns) hc he).untouched
  · rw [load_of_parse hl] at he ⊢
    obtain ⟨done, s, rest, hsplit, hdone, hs, hraised⟩ := declareAll_error hc he
    exact ⟨done, s, rest, hsplit, hdone, hs, hraised.untouched⟩
  · exact perform_ok (Build.meets_construct ns name? t) hc hk
  · exact perform_ok (Build.meets_findOrBuild t ns) hc hk
  · rw [load_of_parse hl] at hok ⊢
    exact declareAll_ok hc hok

/-- The first of two prototypes keeps a nested definition before it rejects the second parameter.
Nothing of that is left, neither where the second prototype rejects it too nor where it does not. -/
theorem Reachable.atomic_feature :
    let xs : List Parameter := [{ name := "x", kind := .entry .strFn }]
    let factories : Factories :=
      ⟨[.ofSchema .feature "F" (xs ++ [{ name := "y", kind := .text }]),
        .ofSchema .feature "F" (xs ++ [{ name := "y", kind := .array }])], [.strFn]⟩
    let ctx := Context.empty 0 factories
    let call (y : Term) : Term := .call "F"
      ⟨[⟨.named "x", [], .call "G" {} none⟩, ⟨.named "y", [], y⟩], .parameters⟩ none
    Untouched ctx (ctx.getOrConstruct .feature (call (.capture "c"))).context ∧
      (ctx.getOrConstruct .feature (call (.capture "c"))).context.counter = 3 ∧
      (∃ k, Builds ctx (.entry (call (.array [])) .feature k)
        (ctx.getOrConstruct .feature (call (.array []))).context) ∧
      (ctx.getOrConstruct .feature (call (.array []))).context.order =
        [(.strFn, "2"), (.feature, "0")] := by
  intro xs factories ctx call
  have h : ctx.Reachable := .empty 0 factories
  have herror : (ctx.getOrConstruct .feature (call (.capture "c"))).result =
      .error (.structural (.notArray (.capture "c"))) := by decide +kernel
  have hcounter : (ctx.getOrConstruct .feature (call (.capture "c"))).context.counter = 3 := by
    decide +kernel
  have hok : (ctx.getOrConstruct .feature (call (.array []))).result.isOk = true := by
    decide +kernel
  have horder : (ctx.getOrConstruct .feature (call (.array []))).context.order =
      [(.strFn, "2"), (.feature, "0")] := by decide +kernel
  -- Everything has been computed, and nothing of it is to be computed again.
  clear_value ctx call
  obtain ⟨k, hk⟩ := exists_eq_ok hok
  obtain ⟨-, hfail, -, -, -, hsucceed, -⟩ := h.atomic
  exact ⟨hfail _ _ _ herror, hcounter, ⟨k, hsucceed _ _ _ hk⟩, horder⟩

end Context

end TermRegistry
