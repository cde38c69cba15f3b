import TermRegistry.Context.Operations
import TermRegistry.Proofs.Construction

/-!
# What the operations do

Every operation that builds something either follows a course of construction to its end, or fails
and leaves the context raised. The declarations of a text are built one after the other, so loading
follows a course for each of the statements up to the first one that fails.
-/

namespace TermRegistry

namespace Reported

variable {α : Type}

@[simp] theorem result_of (r : Except Error α) : (Reported.of r).result = r := by
  cases r <;> rfl

end Reported

namespace Context

variable {ctx ctx' : Context} {α : Type} {b : Build α} {Q : Context → α → Context → Prop}

/-! ### Operations as a whole -/

/-- **An operation that succeeds** meets what its computation meets. -/
theorem perform_ok (h : b.Meets Q) (hc : ctx.Coherent) {a : α}
    (ha : (ctx.perform b).result = .ok a) : Q ctx a (ctx.perform b).context := by
  obtain ⟨js, -, -, hQ⟩ := h.undoing ⟨ctx, []⟩ hc
  refine hQ a ?_
  rw [← ha]
  exact (Reported.result_of _).symm

/-- **An operation that fails** leaves the context raised, and nothing else. -/
theorem perform_error (h : b.Meets Q) (hc : ctx.Coherent) {e : Error}
    (he : (ctx.perform b).result = .error e) : ctx.Raised (ctx.perform b).context := by
  refine (h.raised_of_error (p := ⟨ctx, []⟩) hc (e := e) ?_).2
  rw [← he]
  exact (Reported.result_of _).symm

/-- Operations let a context grow. -/
theorem perform_grows (h : b.Meets Q) (hc : ctx.Coherent) :
    ∃ js, ctx.Grows js (ctx.perform b).context := by
  obtain ⟨js, -, hgrows, -⟩ := h.undoing ⟨ctx, []⟩ hc
  exact ⟨js, hgrows⟩

/-- An operation answers with what its computation does. -/
theorem result_perform (ctx : Context) (b : Build α) :
    (ctx.perform b).result = (b.outcome ⟨ctx, []⟩).1 := by
  show (Reported.of _).result = _
  rw [Reported.result_of]
  show (Build.outcome (Build.undoing b) ⟨ctx, []⟩).1 = _
  rw [Build.outcome_undoing]
  split
  · next h => rw [h]
  · next h => rw [h]

/-- A computation that succeeds is performed as it is. -/
theorem perform_of_outcome {a : α} {p : Progress}
    (h : Build.outcome b ⟨ctx, []⟩ = (.ok a, p)) :
    (ctx.perform b).result = .ok a ∧ (ctx.perform b).context = p.context := by
  have hundoing := Build.outcome_undoing ⟨ctx, []⟩ b
  rw [h] at hundoing
  refine ⟨(Reported.result_of _).trans (congrArg Prod.fst hundoing), ?_⟩
  exact congrArg (fun o ↦ o.2.context) hundoing

/-! ### Declarations -/

/-- A declaration constructs an entry in the namespace that its type names. -/
theorem declare_eq {s : Entry Term} {ns : Namespace} (hns : declaredNamespace s = .ok ns) :
    ctx.declare s = ctx.construct ns s.name? s.value := by
  rw [declare, hns]

/-- A declaration that succeeds follows a course to a new entry. -/
theorem declare_ok {s : Entry Term} {k : Kept} (hc : ctx.Coherent)
    (hk : (ctx.declare s).result = .ok k) : ∃ ns, declaredNamespace s = .ok ns ∧
      Builds ctx (.new ns s.name? s.value k) (ctx.declare s).context := by
  cases hns : declaredNamespace s with
  | error e =>
    rw [declare, hns] at hk
    cases hk
  | ok ns =>
    rw [declare_eq hns] at hk ⊢
    exact ⟨ns, rfl, perform_ok (Build.meets_construct ns s.name? s.value) hc hk⟩

/-- A declaration that fails leaves the context raised, also where there is no namespace for it. -/
theorem declare_error {s : Entry Term} (hc : ctx.Coherent) {e : Error}
    (he : (ctx.declare s).result = .error e) : ctx.Raised (ctx.declare s).context := by
  cases hns : declaredNamespace s with
  | error e' =>
    rw [declare, hns]
    exact .refl ctx
  | ok ns =>
    rw [declare_eq hns] at he ⊢
    exact perform_error (Build.meets_construct ns s.name? s.value) hc he

/-- Declarations let a context grow. -/
theorem declare_grows (s : Entry Term) (hc : ctx.Coherent) :
    ∃ js, ctx.Grows js (ctx.declare s).context := by
  cases hns : declaredNamespace s with
  | error e =>
    rw [declare, hns]
    exact ⟨[], .refl ctx⟩
  | ok ns =>
    rw [declare_eq hns]
    exact perform_grows (Build.meets_construct ns s.name? s.value) hc

/-- **Courses of declarations**, each of which builds a new entry. -/
inductive Declares : Context → List (Entry Term) → Context → Prop
  | nil (ctx : Context) : Declares ctx [] ctx
  | cons {ctx ctx' ctx'' : Context} {s : Entry Term} {ss : List (Entry Term)} {ns : Namespace}
      {k : Kept} (hns : declaredNamespace s = .ok ns)
      (h : Builds ctx (.new ns s.name? s.value k) ctx') (hs : Declares ctx' ss ctx'') :
      Declares ctx (s :: ss) ctx''

/-- After a declaration that succeeds, the others go on from what it has left. -/
theorem declareAll_cons_ok {s : Entry Term} {ss : List (Entry Term)} {k : Kept}
    (h : (ctx.declare s).result = .ok k) :
    ctx.declareAll (s :: ss) = (ctx.declare s).context.declareAll ss := by
  rw [declareAll]
  simp only [h]

/-- A declaration that fails is the last one. -/
theorem declareAll_cons_error {s : Entry Term} (ss : List (Entry Term)) {e : Error}
    (h : (ctx.declare s).result = .error e) :
    (ctx.declareAll (s :: ss)).result = .error e ∧
      (ctx.declareAll (s :: ss)).context = (ctx.declare s).context := by
  rw [declareAll]
  simp only [h, true_and]

/-- Declarations that succeed follow a course to its end. -/
theorem declareAll_ok {ss : List (Entry Term)} (hc : ctx.Coherent)
    (h : (ctx.declareAll ss).result = .ok ()) : Declares ctx ss (ctx.declareAll ss).context := by
  induction ss generalizing ctx with
  | nil => exact .nil ctx
  | cons s ss ih =>
    cases hs : (ctx.declare s).result with
    | error e =>
      rw [(declareAll_cons_error ss hs).1] at h
      cases h
    | ok k =>
      rw [declareAll_cons_ok hs] at h ⊢
      obtain ⟨js, hgrows⟩ := declare_grows s hc
      obtain ⟨ns, hns, hk⟩ := declare_ok hc hs
      exact .cons hns hk (ih (hgrows.coherent hc) h)

/-- **Declarations that fail** follow a course up to the statement that fails, which leaves what was
there raised. -/
theorem declareAll_error {ss : List (Entry Term)} (hc : ctx.Coherent) {e : Error}
    (h : (ctx.declareAll ss).result = .error e) :
    ∃ done s rest, ss = done ++ s :: rest ∧ (ctx.declareAll done).result = .ok () ∧
      ((ctx.declareAll done).context.declare s).result = .error e ∧
      (ctx.declareAll done).context.Raised (ctx.declareAll ss).context := by
  induction ss generalizing ctx with
  | nil => cases h
  | cons s ss ih =>
    cases hs : (ctx.declare s).result with
    | error e' =>
      obtain ⟨hresult, hcontext⟩ := declareAll_cons_error ss hs
      rw [hresult] at h
      cases h
      -- The first statement fails, and nothing was declared before it.
      refine ⟨[], s, ss, rfl, rfl, hs, ?_⟩
      rw [hcontext]
      exact declare_error hc hs
    | ok k =>
      rw [declareAll_cons_ok hs] at h ⊢
      obtain ⟨js, hgrows⟩ := declare_grows s hc
      obtain ⟨done, s', rest, rfl, hdone, hs', hraised⟩ := ih (hgrows.coherent hc) h
      refine ⟨s :: done, s', rest, rfl, ?_⟩
      rw [declareAll_cons_ok hs]
      exact ⟨hdone, hs', hraised⟩

/-- Any number of declarations lets a context grow, whether they fail or not. -/
theorem declareAll_grows (ss : List (Entry Term)) (hc : ctx.Coherent) :
    ∃ js, ctx.Grows js (ctx.declareAll ss).context := by
  induction ss generalizing ctx with
  | nil => exact ⟨[], .refl ctx⟩
  | cons s ss ih =>
    obtain ⟨js, hgrows⟩ := declare_grows s hc
    cases hs : (ctx.declare s).result with
    | error e =>
      rw [(declareAll_cons_error ss hs).2]
      exact ⟨js, hgrows⟩
    | ok k =>
      rw [declareAll_cons_ok hs]
      obtain ⟨ks, hgrows'⟩ := ih (hgrows.coherent hc)
      exact ⟨js ++ ks, hgrows.trans hgrows'⟩

/-! ### Loading -/

/-- A text that can be read is loaded by declaring its statements. -/
theorem load_of_parse {text : String} {l : Listing Term}
    (h : Listing.parseStatements text = .ok l) : ctx.load text = ctx.declareAll l.entries := by
  rw [load, h]
  rfl

/-- A text that cannot be read leaves a context as it is. -/
theorem load_of_parse_error {text : String} {e : Error}
    (h : Listing.parseStatements text = .error e) :
    (ctx.load text).result = .error e ∧ (ctx.load text).context = ctx := by
  rw [load, h]
  exact ⟨rfl, rfl⟩

/-- Loading a text lets a context grow. -/
theorem load_grows (text : String) (hc : ctx.Coherent) :
    ∃ js, ctx.Grows js (ctx.load text).context := by
  cases h : Listing.parseStatements text with
  | error e =>
    rw [(load_of_parse_error h).2]
    exact ⟨[], .refl ctx⟩
  | ok l =>
    rw [load_of_parse h]
    exact declareAll_grows l.entries hc

end Context

end TermRegistry
