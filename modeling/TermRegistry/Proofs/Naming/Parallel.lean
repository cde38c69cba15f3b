import TermRegistry.Proofs.Naming.Renaming
import TermRegistry.Proofs.Naming.Sparing

/-!
# Constructions that go together

From contexts that differ in minted names alone, a construction that mentions none of these names
leads to contexts that differ in such names alone, or it fails in both. `Build.Tally` says this of
two outcomes. It says nothing of what failures leave behind: a failure that is put right has been
undone, and that leaves the contexts as they were but for the numbers used up (`Tally.orElse`).

The names that two courses of the construction mint may differ, and each of them has to be free when
its entry is kept. This does not follow from the other course, and is `Builds.minted_free` for each
of them alone.
-/

namespace TermRegistry

namespace Build

variable {α β γ δ : Type} {names : Set String}

/-- **Two outcomes tally** if both are failures, or the results are related and the contexts differ
in the given names alone. -/
inductive Tally (names : Set String) (R : α → β → Prop) :
    Except Error α × Progress → Except Error β × Progress → Prop
  | ok {a : α} {b : β} {p q : Progress} (h : R a b) (hpq : p.context.Renamed names q.context) :
      Tally names R (.ok a, p) (.ok b, q)
  | error (e e' : Error) (p q : Progress) : Tally names R (.error e, p) (.error e', q)

namespace Tally

variable {R R' : α → β → Prop} {S : γ → δ → Prop} {b : Build α} {b' : Build β} {p q : Progress}

theorem pure {a : α} {a' : β} (h : R a a') (hpq : p.context.Renamed names q.context) :
    Tally names R (outcome (pure a) p) (outcome (pure a') q) :=
  .ok h hpq

theorem throw (e e' : Error) :
    Tally names R (outcome (throw e : Build α) p) (outcome (throw e' : Build β) q) :=
  .error e e' p q

/-- **Computations that tally go on to tally**, if their continuations do where both succeed. -/
theorem bind (h : Tally names R (outcome b p) (outcome b' q)) {f : α → Build γ} {f' : β → Build δ}
    (hf : ∀ a a' p' q', outcome b p = (.ok a, p') → outcome b' q = (.ok a', q') → R a a' →
      p'.context.Renamed names q'.context → Tally names S (outcome (f a) p') (outcome (f' a') q')) :
    Tally names S (outcome (b >>= f) p) (outcome (b' >>= f') q) := by
  rw [outcome_bind, outcome_bind]
  generalize outcome b p = x at h hf ⊢
  generalize outcome b' q = y at h hf ⊢
  cases h with
  | ok ha hpq => exact hf _ _ _ _ rfl rfl ha hpq
  | error e e' p' q' => exact .error e e' p' q'

/-- Questions that are answered alike tally. -/
theorem ask {f : Context → Except Error α} {f' : Context → Except Error β}
    (h : Parallel R (f p.context) (f' q.context)) (hpq : p.context.Renamed names q.context) :
    Tally names R (outcome (ask f) p) (outcome (ask f') q) := by
  rw [outcome_ask, outcome_ask]
  generalize f p.context = x at h ⊢
  generalize f' q.context = y at h ⊢
  cases h with
  | ok h => exact .ok h hpq
  | error e e' => exact .error e e' p q

/-- Asking the context is the first step of most computations, and does not change it. -/
theorem bind_ask {f : Context → Except Error α} {f' : Context → Except Error β}
    (h : Parallel R (f p.context) (f' q.context)) {g : α → Build γ} {g' : β → Build δ}
    (hg : ∀ a a', R a a' → f p.context = .ok a →
      Tally names S (outcome (g a) p) (outcome (g' a') q)) :
    Tally names S (outcome (Build.ask f >>= g) p) (outcome (Build.ask f' >>= g') q) := by
  rw [outcome_bind, outcome_bind, outcome_ask, outcome_ask]
  generalize f p.context = x at h hg ⊢
  generalize f' q.context = y at h ⊢
  cases h with
  | ok h => exact hg _ _ h rfl
  | error e e' => exact .error e e' p q

/-- The same answer in both contexts leaves the continuations to be compared. -/
theorem bind_ask_eq {f : Context → Except Error α} (h : f p.context = f q.context)
    {g : α → Build γ} {g' : α → Build δ}
    (hg : ∀ a, f p.context = .ok a → Tally names S (outcome (g a) p) (outcome (g' a) q)) :
    Tally names S (outcome (Build.ask f >>= g) p) (outcome (Build.ask f >>= g') q) := by
  refine .bind_ask ((Agree.of_eq h).parallel fun _ _ ↦ id) ?_
  rintro a _ rfl ha
  exact hg a ha

/-- Results that go together tally, as they are lifted. -/
theorem of_parallel {r : Except Error α} {r' : Except Error β} (h : Parallel R r r')
    (hpq : p.context.Renamed names q.context) :
    Tally names R (outcome (liftM r) p) (outcome (liftM r') q) := by
  rw [outcome_liftM, outcome_liftM]
  cases h with
  | ok h => exact .ok h hpq
  | error e e' => exact .error e e' p q

/-- A computed result is the same on both sides. -/
theorem bind_liftM (r : Except Error α) {f : α → Build γ} {f' : α → Build δ}
    (hf : ∀ a, Tally names S (outcome (f a) p) (outcome (f' a) q)) :
    Tally names S (outcome (liftM r >>= f) p) (outcome (liftM r >>= f') q) := by
  rw [outcome_bind, outcome_bind, outcome_liftM, outcome_liftM]
  cases r with
  | ok a => exact hf a
  | error e => exact .error e e p q

/-- **What failed is taken back in both contexts**, and they go on from there. -/
theorem orElse {Q : Context → α → Context → Prop} {Q' : Context → β → Context → Prop}
    (hb : Meets b Q) (hb' : Meets b' Q') (h : Tally names R (outcome b p) (outcome b' q))
    (hpq : p.context.Renamed names q.context) {f : Error → Build α} {f' : Error → Build β}
    (hf : ∀ e e' p' q', p'.context.Renamed names q'.context →
      Tally names R (outcome (f e) p') (outcome (f' e') q')) :
    Tally names R (outcome (tryCatch (undoing b) f) p) (outcome (tryCatch (undoing b') f') q) := by
  -- Taking back leaves only the counter raised, on both sides.
  have hback := fun e ↦ hb.raised_of_error (e := e) hpq.coherent
  have hback' := fun e ↦ hb'.raised_of_error (e := e) hpq.coherent'
  rw [outcome_tryCatch, outcome_tryCatch]
  rw [outcome_undoing] at hback hback' ⊢
  rw [outcome_undoing]
  generalize outcome b p = x at h hback ⊢
  generalize outcome b' q = y at h hback' ⊢
  cases h with
  | ok ha hpq' => exact .ok ha hpq'
  | error e e' p' q' =>
    exact hf e e' _ _ (hpq.raised (hback e rfl).2 (hback' e' rfl).2)

end Tally

/-! ### The functions of a construction -/

section

variable {t : Term} {ns : Namespace} {p q : Progress}

/-- **What a parameter refers to tallies**: the two links differ, and what is left of them is
equal. -/
theorem tally_resolve {find : Namespace → Build Kept}
    (h : ∀ ns, Tally names Kept.Renamed (outcome (find ns) p) (outcome (find ns) q))
    (hpq : p.context.Renamed names q.context) (ht : t.Avoids names) (kind : ParameterKind) :
    Tally names (fun r r' ↦ r.blank = r'.blank) (outcome (resolve find t kind) p)
      (outcome (resolve find t kind) q) := by
  have hentry (ns : Namespace) : Tally names (fun r r' ↦ r.blank = r'.blank)
      (outcome (do return Resolved.entry (← find ns).link) p)
      (outcome (do return Resolved.entry (← find ns).link) q) :=
    (h ns).bind fun k l p' q' _ _ hk hpq' ↦ .pure hk.blank_link hpq'
  -- The kind decides where the value is looked up; only entries are built.
  cases kind with
  | text => exact .bind_ask_eq (hpq.under.textOf_eq ht) fun s _ ↦ .pure rfl hpq
  | array => exact .bind_ask_eq (hpq.under.textsOf_eq ht) fun items _ ↦ .pure rfl hpq
  | entry ns => exact hentry ns
  | anyFunction => exact .bind_ask_eq (hpq.under.inferFamily_eq ht) fun ns _ ↦ hentry ns
  | anything =>
    refine .bind_ask ((hpq.under.shapeOf ht).parallel fun _ _ ↦ id) fun s s' hs _ ↦ ?_
    cases hs with
    | settled hr => exact .pure hr.blank_eq hpq
    | same s =>
      cases s with
      | settled r => exact .pure rfl hpq
      | definition ns => exact hentry ns

/-- **What setting parameters has to do** for constructions to go together. -/
def PopulatesAlike (names : Set String) (populate : Component → Build Component) : Prop :=
  ∀ c d, c.Renamed names d → ∀ p q, p.context.Renamed names q.context →
    Tally names (Component.Renamed names) (outcome (populate c) p) (outcome (populate d) q)

/-- Prototypes that are tried in turn tally, each from the contexts that the one before has left. -/
theorem tally_tryPrototypes {build : Component → Build Component}
    {Q : Component → Context → Component → Context → Prop} (hbuild : ∀ c, Meets (build c) (Q c))
    (h : PopulatesAlike names build) (e e' : Error) (ps : List Prototype)
    (hps : ∀ proto ∈ ps, proto.instantiate.Avoids names)
    (hpq : p.context.Renamed names q.context) :
    Tally names (Component.Renamed names) (outcome (tryPrototypes build e ps) p)
      (outcome (tryPrototypes build e' ps) q) := by
  induction ps generalizing e e' p q with
  | nil => exact .throw e e'
  | cons proto ps ih =>
    obtain ⟨hproto, hps⟩ := List.forall_mem_cons.1 hps
    rw [tryPrototypes, tryPrototypes]
    exact .orElse (hbuild _) (hbuild _) (h _ _ (.refl hproto) p q hpq) hpq
      fun e e' p' q' hpq' ↦ ih e e' hps hpq'

/-- A definition is built into components that differ in their links, or fails in both contexts. -/
theorem tally_component {populate : Component → Build Component} (hpopulate : Populates populate t)
    (h : PopulatesAlike names populate) (hpq : p.context.Renamed names q.context)
    (ht : t.Avoids names) (ns : Namespace) :
    Tally names (Component.Renamed names) (outcome (component populate ns t) p)
      (outcome (component populate ns t) q) := by
  cases t with
  | call name parameters internal =>
    refine .bind_ask_eq (hpq.under.checkFamily_eq ht ns) fun _ _ ↦ ?_
    refine .bind_ask_eq (by rw [hpq.under.factories_eq]) fun ps hps ↦ ?_
    cases hps
    refine tally_tryPrototypes (fun c ↦ (hpopulate name parameters internal rfl c).bind
      fun _ d _ _ ↦ .pure (d.withInternal internal)) ?_ _ _ _ (fun proto hproto ↦ ?_) hpq
    · intro c d hcd p' q' hpq'
      exact (h c d hcd p' q' hpq').bind fun c' d' p'' q'' _ _ hcd' hpq'' ↦
        .pure (hcd'.withInternal internal) hpq''
    · exact hpq.defaults.instantiate hproto
  | _ => exact .throw _ _

/-- Objects that are built alike, and show none of the names. -/
structure BuiltAlike (names : Set String) (x y : Content) : Prop where
  alike : x.Alike y
  avoids : x.toTerm.Avoids names

/-- What an entry is to hold is built alike in both contexts. -/
theorem tally_content {populate : Component → Build Component} (hpopulate : Populates populate t)
    (h : PopulatesAlike names populate) (hpq : p.context.Renamed names q.context)
    (ht : t.Avoids names) (ns : Namespace) :
    Tally names (BuiltAlike names) (outcome (content populate t ns) p)
      (outcome (content populate t ns) q) := by
  cases ns with
  | array =>
    refine .bind_ask_eq (hpq.under.textsOf_eq ht) fun items _ ↦ .pure ⟨.same _, fun x hx ↦ ?_⟩ hpq
    have hnone : (Content.texts items).toTerm.references = [] := Term.references_texts items
    rw [hnone] at hx
    cases hx
  | value =>
    refine .bind_ask_eq (hpq.under.textOf_eq ht) fun s _ ↦ .pure ⟨.same _, ?_⟩ hpq
    exact nofun
  | ruleSet =>
    refine .bind_liftM _ fun s ↦ .pure ⟨.same _, ?_⟩ hpq
    exact nofun
  | _ =>
    refine (tally_component hpopulate h hpq ht _).bind fun c d p' q' _ _ hcd hpq' ↦ ?_
    exact .pure ⟨.component hcd.toTerm_eq, hcd.avoids.toTerm⟩ hpq'

/-- An entry is matched in both contexts or in neither, and then what is built in its place
counts. -/
theorem tally_matchOr {b b' : Build Kept}
    (h : Tally names Kept.Renamed (outcome b p) (outcome b' q))
    (hpq : p.context.Renamed names q.context) (ht : t.Avoids names) (ns : Namespace) :
    Tally names Kept.Renamed (outcome (matchOr t ns b) p) (outcome (matchOr t ns b') q) := by
  refine .bind_ask (hpq.singleMatch ht ns) fun k? l? hk _ ↦ ?_
  cases hk with
  | none => exact h
  | some hk => exact .pure hk hpq

/-- **Anonymous entries are kept in both contexts**, each under the name that was minted for it. -/
theorem tally_findOrKeep {populate : Component → Build Component}
    (hpopulate : Populates populate t) (h : PopulatesAlike names populate)
    (hpq : p.context.Renamed names q.context) (ht : t.Avoids names) (ns : Namespace) :
    Tally names Kept.Renamed (outcome (findOrKeep populate t ns) p)
      (outcome (findOrKeep populate t ns) q) := by
  have hminted := hpq.mint ns
  have hmint : Tally names (fun _ _ ↦ True) (outcome (mint ns) p) (outcome (mint ns) q) := by
    rw [outcome_mint, outcome_mint]
    exact .ok trivial hminted
  refine tally_matchOr (hmint.bind fun name name' p' q' hp' hq' _ _ ↦ ?_) hpq ht ns
  rw [outcome_mint] at hp' hq'
  cases hp'
  cases hq'
  refine (tally_content hpopulate h hminted ht ns).bind fun x y p' q' hx hy hxy hpq' ↦ ?_
  obtain ⟨-, hx⟩ := (meets_content hpopulate).of_outcome hminted.coherent hx
  obtain ⟨-, hy⟩ := (meets_content hpopulate).of_outcome hminted.coherent' hy
  -- The names that were minted are still free once the definition has been built, and the two may
  -- differ. They are among the names in which the contexts may.
  have hfree := hx.minted_free hpq.coherent
  have hfree' := hy.minted_free hpq.coherent'
  refine tally_matchOr ?_ hpq' ht ns
  rw [outcome_keep, outcome_keep, hfree, hfree']
  exact .ok ⟨rfl, hxy.alike⟩
    (hpq'.keep hxy.alike (hpq.nextNumber_mem ns) (hpq.nextNumber_mem' ns) hfree hfree'
      hx.suits hy.suits hxy.avoids)

end

/-! ### The recursion -/

mutual

/-- **Definitions are found or built in both contexts or in neither.** -/
theorem tally_findOrBuild : (t : Term) → (ns : Namespace) → {p q : Progress} →
    p.context.Renamed names q.context → t.Avoids names →
      Tally names Kept.Renamed (outcome (findOrBuild t ns) p) (outcome (findOrBuild t ns) q)
  | .reference name, ns, p, q, hpq, ht => by
    have hname : name ∈ namesᶜ := ht name (Term.mem_references_self name)
    rw [findOrBuild]
    exact .ask ((hpq.under.referred ns hname).parallel fun _ _ hk ↦ hk.renamed) hpq
  | .call name ⟨es, form⟩ internal, ns, p, q, hpq, ht => by
    have hes : ∀ e ∈ es, e.value.Avoids names := fun e he ↦ ht.part (List.mem_map_of_mem he)
    have hpopulate : Populates (fun c ↦ populate name c.names 0 es c)
        (.call name ⟨es, form⟩ internal) := by
      rintro _ _ _ ⟨rfl, rfl, rfl⟩ c
      exact meets_populate name c.names 0 es c
    have halike : PopulatesAlike names (fun c ↦ populate name c.names 0 es c) := by
      intro c d hcd p q hpq
      show Tally names _ (outcome (populate name c.names 0 es c) p)
        (outcome (populate name d.names 0 es d) q)
      rw [hcd.names_eq]
      exact tally_populate name d.names 0 es hcd hpq hes
    rw [findOrBuild]
    exact tally_findOrKeep hpopulate halike hpq ht ns
  | .text _, ns, p, q, hpq, ht | .capture _, ns, p, q, hpq, ht | .array _, ns, p, q, hpq, ht
  | .listing _, ns, p, q, hpq, ht | .rule _ _, ns, p, q, hpq, ht => by
    rw [findOrBuild_of_data]
    · refine tally_findOrKeep ?_ (fun c d hcd p q hpq ↦ .pure hcd hpq) hpq ht ns
      nofun
    · rfl
    · nofun

/-- Parameters are set on components that differ in their links, or on neither. -/
theorem tally_populate (generic : String) (positions : List String) (index : Nat) :
    (es : List (Entry Term)) → {c d : Component} → c.Renamed names d → {p q : Progress} →
      p.context.Renamed names q.context → (∀ e ∈ es, e.value.Avoids names) →
        Tally names (Component.Renamed names) (outcome (populate generic positions index es c) p)
          (outcome (populate generic positions index es d) q)
  | [], c, d, hcd, p, q, hpq, _ => by
    rw [populate, populate]
    exact .pure hcd hpq
  | ⟨label, modifiers, t⟩ :: es, c, d, hcd, p, q, hpq, hes => by
    obtain ⟨ht, hes⟩ := List.forall_mem_cons.1 hes
    have hfind (ns : Namespace) :
        Tally names Kept.Renamed (outcome (findOrBuild t ns) p) (outcome (findOrBuild t ns) q) :=
      tally_findOrBuild t ns hpq ht
    -- Names and kinds are the same on both sides, so the same steps are taken.
    have hkinds (name : String) : parameterKind generic d name = parameterKind generic c name := by
      rw [parameterKind, parameterKind, hcd.kind?_eq]
    rw [populate, populate]
    refine .bind_liftM _ fun name ↦ ?_
    rw [hkinds]
    refine .bind_liftM _ fun kind ↦ ?_
    refine (tally_resolve hfind hpq ht kind).bind fun r r' p' q' _ _ hr hpq' ↦ ?_
    refine (Tally.of_parallel (hcd.set name ht hr) hpq').bind fun c' d' p'' q'' _ _ hcd' hpq'' ↦ ?_
    exact tally_populate generic positions (index + 1) es hcd' hpq'' hes

end

/-- The parameters of a definition that avoids the names are set alike. -/
theorem tally_populateFrom {t : Term} (ht : t.Avoids names) :
    PopulatesAlike names (populateFrom t) := by
  intro c d hcd p q hpq
  cases t with
  | call name parameters internal =>
    have hes : ∀ e ∈ parameters.entries, e.value.Avoids names := fun e he ↦
      ht.part (List.mem_map_of_mem he)
    rw [populateFrom, populateFrom, hcd.names_eq]
    exact tally_populate name d.names 0 parameters.entries hcd hpq hes
  | _ => exact .pure hcd hpq

end Build

end TermRegistry
