import TermRegistry.Proofs.Construction
import TermRegistry.Proofs.Families
import TermRegistry.Proofs.Naming.Minting

/-!
# What a construction says of taken names

The entries that a construction keeps on its way never meet a name that is taken, so the only error
about such a name that it can fail with is that of the new entry which it is all done for
(`Build.error_of_construct`). That name was there before, or it is a number that was minted on the
way.

Rule sets have names of their own, those of their rules, and a definition that gives two rules the
same name fails with an error of the same kind. `Error.SparesEntries` tells them apart by the scope.

**Design.** `Build.Spares` speaks of a computation at one progress and not at all of them, since
keeping an entry is safe only where its name is free. What a step has done to the context is taken
from `Build.Meets` where it is needed.
-/

namespace TermRegistry

/-! ### Errors about the names of entries -/

namespace Error

/-- **An error spares entries** if it does not say of an entry that its name is taken: if a name is
taken then among the rules of a rule set. -/
def SparesEntries (e : Error) : Prop :=
  ∀ scope name, e = .duplicateName scope name → scope = RuleSet.ruleType

namespace SparesEntries

theorem structural (fault : StructureFault) : (Error.structural fault).SparesEntries := by
  rintro scope name ⟨⟩

theorem construction (fault : ConstructionFault) : (Error.construction fault).SparesEntries := by
  rintro scope name ⟨⟩

theorem unresolved (name : String) : (Error.unresolved name).SparesEntries := by
  rintro scope name ⟨⟩

theorem ambiguous (ns : Namespace) (candidates : List String) :
    (Error.ambiguous ns candidates).SparesEntries := by
  rintro scope name ⟨⟩

theorem circular : Error.circular.SparesEntries := by
  rintro scope name ⟨⟩

end SparesEntries

end Error

/-- The names of rules are no names of entries. -/
theorem Namespace.tag_ne_ruleType (ns : Namespace) : ns.tag ≠ RuleSet.ruleType := by
  cases ns <;> decide

/-- Reading a rule set fails for its form or for a name that two rules have, which is a rule's
name. -/
theorem RuleSet.sparesEntries_of_ofTerm {t : Term} {e : Error} (h : ofTerm t = .error e) :
    e.SparesEntries := by
  -- Only the statements one by one can meet a name that is taken: that of a rule in front.
  have hstatements {s : RuleSet} {es : List (Entry Term)} (h : s.addStatements es = .error e) :
      e.SparesEntries := by
    induction es generalizing s with
    | nil => cases h
    | cons d ds ih =>
      rw [addStatements] at h
      split at h
      · cases h
        exact .structural _
      · split at h
        · next source target _ =>
          cases hadd : s.add (d.name?.getD "") ⟨source, target⟩ with
          | ok s' =>
            rw [hadd] at h
            exact ih h
          | error e' =>
            rw [hadd] at h
            cases h
            rw [add] at hadd
            split at hadd
            · cases hadd
              rintro scope name ⟨⟩
              rfl
            · cases hadd
        · cases h
          exact .structural _
  cases t with
  | call name parameters internal =>
    rw [ofTerm] at h
    split at h
    · cases h
      exact .structural _
    · split at h
      · cases h
        exact .structural _
      · exact hstatements h
  | _ =>
    cases h
    exact .structural _

/-- A generic name that no family or that several families know says nothing of entries. -/
theorem Factories.sparesEntries_of_familyOf {f : Factories} {name : String} {e : Error}
    (h : f.familyOf name = .error e) : e.SparesEntries := by
  rw [familyOf] at h
  split at h
  · cases h
  · cases h
    exact .construction _
  · cases h
    exact .structural _

/-- A parameter that is refused says nothing of entries. -/
theorem Component.sparesEntries_of_set {c : Component} {name : String} {a : Argument} {e : Error}
    (h : c.set name a = .error e) : e.SparesEntries := by
  rw [set] at h
  split at h
  · cases h
    exact .construction _
  · split at h
    · cases h
    · cases h
      exact .construction _

/-- Matching fails for a reference that nothing is stored for, or has no end. -/
theorem Term.sparesEntries_of_matching {s : Storage} {p c : Term} {e : Error}
    (h : p.matching s c = .error e) : e.SparesEntries := by
  rw [matching] at h
  split at h
  · cases h
  · cases h
  · cases h
    exact .unresolved _
  · cases h
    exact .circular

namespace Context

variable {ctx : Context} {ns : Namespace} {t : Term} {e : Error}

/-- Items of an array that are no texts are faults of structure. -/
theorem sparesEntries_of_itemTexts {ts : List Term} (h : itemTexts ts = .error e) :
    e.SparesEntries := by
  induction ts with
  | nil => cases h
  | cons t ts ih =>
    cases t with
    | text s =>
      cases hrest : itemTexts ts with
      | ok items =>
        rw [itemTexts, hrest] at h
        cases h
      | error e' =>
        rw [itemTexts, hrest] at h
        cases h
        exact ih hrest
    | _ =>
      cases h
      exact .structural _

/-- Reading a text fails for its form, or for a reference to no text. -/
theorem sparesEntries_of_textOf (h : ctx.textOf t = .error e) : e.SparesEntries := by
  cases t with
  | text s => cases h
  | reference name =>
    rw [textOf] at h
    split at h
    · cases h
    · cases h
      exact .unresolved _
  | _ =>
    cases h
    exact .structural _

/-- Reading an array fails for its form, for an item, or for a reference to no array. -/
theorem sparesEntries_of_textsOf (h : ctx.textsOf t = .error e) : e.SparesEntries := by
  cases t with
  | array ts => exact sparesEntries_of_itemTexts h
  | reference name =>
    rw [textsOf] at h
    split at h
    · cases h
    · cases h
      exact .unresolved _
  | _ =>
    cases h
    exact .structural _

/-- A reference to no entry of a namespace is unresolved. -/
theorem sparesEntries_of_referred {name : String} (h : ctx.referred ns name = .error e) :
    e.SparesEntries := by
  rw [referred] at h
  split at h
  · cases h
  · cases h
    exact .unresolved _

/-- Inferring the family of a composition fails for an operand or for how they are composed. -/
theorem sparesEntries_of_inferFamily (h : ctx.inferFamily t = .error e) : e.SparesEntries := by
  -- The cases of the definition: a reference (two), a composition, calls (two), and anything else.
  fun_induction ctx.inferFamily t with
  | case1 => cases h
  | case2 =>
    cases h
    exact .unresolved _
  | case3 n l₁ ms₁ f l₂ ms₂ g form internal _ ihf ihg =>
    cases hf : ctx.inferFamily f with
    | error e' =>
      rw [hf] at h
      cases h
      exact ihf hf
    | ok fs =>
      cases hg : ctx.inferFamily g with
      | error e' =>
        rw [hf, hg] at h
        cases h
        exact ihg hg
      | ok gs =>
        simp only [hf, hg, bind, Except.bind] at h
        split at h
        · cases h
        · cases h
          exact .structural _
  | case4 | case5 => exact Factories.sparesEntries_of_familyOf h
  | case6 =>
    cases h
    exact .structural _

/-- A value of unknown kind is settled, or fails as a reference, as a capture or in its family. -/
theorem sparesEntries_of_shapeOf (h : ctx.shapeOf t = .error e) : e.SparesEntries := by
  cases t with
  | reference name =>
    rw [shapeOf] at h
    split at h
    · cases h
    · cases h
      exact .unresolved _
  | capture name =>
    cases h
    exact .structural _
  | call name parameters internal =>
    rw [shapeOf] at h
    split at h
    · cases h
    · next hfamily =>
      split at h
      · cases h
        exact sparesEntries_of_inferFamily hfamily
      · cases h
  | _ => cases h

/-- A composition in the wrong family is a fault of structure. -/
theorem sparesEntries_of_checkFamily (h : ctx.checkFamily ns t = .error e) : e.SparesEntries := by
  rw [checkFamily] at h
  split at h
  · cases hfamily : ctx.inferFamily t with
    | error e' =>
      rw [hfamily] at h
      cases h
      exact sparesEntries_of_inferFamily hfamily
    | ok inferred =>
      simp only [hfamily, bind, Except.bind] at h
      split at h
      · cases h
      · cases h
        exact .structural _
  · cases h

/-- Going through the entries fails with what matching one of them fails with. -/
theorem sparesEntries_of_matched {s : Storage} {pattern : Term} {ks : List Kept}
    (h : matched s pattern ks = .error e) : e.SparesEntries := by
  induction ks with
  | nil => cases h
  | cons k ks ih =>
    cases hmatching : pattern.matching s k.toTerm with
    | error e' =>
      rw [matched, hmatching] at h
      cases h
      exact Term.sparesEntries_of_matching hmatching
    | ok m =>
      cases hrest : matched s pattern ks with
      | error e' =>
        rw [matched, hmatching, hrest] at h
        cases h
        exact ih hrest
      | ok rest =>
        rw [matched, hmatching, hrest] at h
        cases h

/-- Looking for one entry fails in matching, or because several entries match. -/
theorem sparesEntries_of_singleMatch (h : ctx.singleMatch ns t = .error e) : e.SparesEntries := by
  cases hmatched : matched ctx.storage t (ctx.inNamespace ns) with
  | error e' =>
    rw [singleMatch, hmatched] at h
    cases h
    exact sparesEntries_of_matched hmatched
  | ok found =>
    simp only [singleMatch, hmatched, bind, Except.bind] at h
    split at h
    · cases h
    · cases h
    · split at h
      · cases h
      · cases h
        exact .ambiguous _ _

end Context

namespace Build

variable {α β : Type} {b : Build α} {p : Progress} {t : Term} {ns : Namespace}

/-- What a computation that succeeds has done. -/
theorem Meets.of_outcome {Q : Context → α → Context → Prop} (h : Meets b Q)
    (hp : p.context.Coherent) {a : α} {q : Progress} (ho : outcome b p = (.ok a, q)) :
    q.context.Coherent ∧ Q p.context a q.context := by
  obtain ⟨js, -, hgrows, hQ⟩ := h p hp
  rw [ho] at hgrows hQ
  exact ⟨hgrows.coherent hp, hQ a rfl⟩

/-- A computation spares entries if every error that it can fail with does. -/
def Spares (b : Build α) (p : Progress) : Prop :=
  ∀ e, (outcome b p).1 = .error e → e.SparesEntries

namespace Spares

theorem of_ok {a : α} (h : (outcome b p).1 = .ok a) : Spares b p := by
  intro e he
  rw [h] at he
  cases he

theorem pure (a : α) : Spares (pure a) p := .of_ok rfl

theorem throw {e : Error} (he : e.SparesEntries) : Spares (throw e : Build α) p := by
  rintro _ ⟨⟩
  exact he

/-- A computation that goes on spares entries if both of its parts do, the second one from where the
first one has ended. -/
theorem bind {f : α → Build β} (h : Spares b p)
    (hf : ∀ a q, outcome b p = (.ok a, q) → Spares (f a) q) : Spares (b >>= f) p := by
  intro e he
  rw [outcome_bind] at he
  cases ho : outcome b p with
  | mk r q =>
    rw [ho] at he
    cases r with
    | ok a => exact hf a q ho e he
    | error e' =>
      cases he
      exact h e (by rw [ho])

/-- The same where the first part only looks at a result. -/
theorem bind_liftM {r : Except Error α} {f : α → Build β} (h : ∀ e, r = .error e → e.SparesEntries)
    (hf : ∀ a, Spares (f a) p) : Spares (liftM r >>= f) p := by
  intro e he
  rw [outcome_bind, outcome_liftM] at he
  cases r with
  | ok a => exact hf a e he
  | error e' =>
    cases he
    exact h e rfl

/-- The same where the first part only asks the context. -/
theorem bind_ask {g : Context → Except Error α} {f : α → Build β}
    (h : ∀ e, g p.context = .error e → e.SparesEntries) (hf : ∀ a, Spares (f a) p) :
    Spares (ask g >>= f) p :=
  bind_liftM h hf

theorem ask {g : Context → Except Error α} (h : ∀ e, g p.context = .error e → e.SparesEntries) :
    Spares (ask g) p := by
  intro e he
  rw [outcome_ask] at he
  exact h e he

/-- The computation that comes instead goes on from a context that is raised, no more. -/
theorem orElse {Q : Context → α → Context → Prop} (h : Spares b p) (hb : Meets b Q)
    (hp : p.context.Coherent) {f : Error → Build α}
    (hf : ∀ e q, e.SparesEntries → q.context.Coherent → Spares (f e) q) :
    Spares (tryCatch (undoing b) f) p := by
  intro e he
  rw [outcome_tryCatch] at he
  -- The first attempt is undone, so it leaves the context raised, and its error is not the answer.
  have hundoing := outcome_undoing p b
  have hraised := fun e ↦ hb.raised_of_error (e := e) hp
  generalize outcome (undoing b) p = x at he hundoing hraised
  obtain ⟨r, q⟩ := x
  cases r with
  | ok a => cases he
  | error e' =>
    refine hf e' q (h e' ?_) ((hraised e' rfl).2.coherent hp) e he
    generalize outcome b p = y at hundoing ⊢
    obtain ⟨r', q'⟩ := y
    cases r' with
    | ok a => cases hundoing
    | error e'' =>
      cases hundoing
      rfl

end Spares

/-! ### What constructions fail with -/

/-- What a parameter gets is read or looked for, so it fails with what these fail with. -/
theorem spares_resolve {find : Namespace → Build Kept} (h : ∀ ns, Spares (find ns) p)
    (kind : ParameterKind) : Spares (resolve find t kind) p := by
  have hentry (ns : Namespace) : Spares (do return Resolved.entry (← find ns).link) p :=
    (h ns).bind fun k _ _ ↦ .pure _
  cases kind with
  | text => exact .bind_ask (fun _ ↦ Context.sparesEntries_of_textOf) fun s ↦ .pure _
  | array => exact .bind_ask (fun _ ↦ Context.sparesEntries_of_textsOf) fun items ↦ .pure _
  | entry ns => exact hentry ns
  | anyFunction => exact .bind_ask (fun _ ↦ Context.sparesEntries_of_inferFamily) hentry
  | anything =>
    refine .bind_ask (fun _ ↦ Context.sparesEntries_of_shapeOf) fun shape ↦ ?_
    cases shape with
    | settled r => exact .pure r
    | definition ns => exact hentry ns

/-- **Trying prototypes** fails with the last of their errors, and each of them spares entries. -/
theorem spares_tryPrototypes {build : Component → Build Component}
    {Q : Component → Context → Component → Context → Prop} (hbuild : ∀ c, Meets (build c) (Q c))
    (h : ∀ c q, q.context.Coherent → Spares (build c) q) (failure : Error)
    (hfailure : failure.SparesEntries) (ps : List Prototype) (hp : p.context.Coherent) :
    Spares (tryPrototypes build failure ps) p := by
  -- Induction on the prototypes, with the error of the last one that was tried.
  induction ps generalizing failure p with
  | nil => exact .throw hfailure
  | cons proto ps ih =>
    rw [tryPrototypes]
    exact (h proto.instantiate p hp).orElse (hbuild proto.instantiate) hp
      fun e q he hq ↦ ih e he hq

/-- What setting the parameters of a term must not fail with. -/
def PopulatesSparing (populate : Component → Build Component) : Prop :=
  ∀ c q, q.context.Coherent → Spares (populate c) q

/-- **Building what an entry holds** spares entries, if setting its parameters does. -/
theorem spares_content {populate : Component → Build Component} (hpopulate : Populates populate t)
    (h : PopulatesSparing populate) (hp : p.context.Coherent) :
    Spares (content populate t ns) p := by
  have hcomponent (ns : Namespace) : Spares (component populate ns t) p := by
    cases t with
    | call name parameters internal =>
      refine .bind_ask (fun _ ↦ Context.sparesEntries_of_checkFamily) fun _ ↦ ?_
      refine .bind_ask (fun e he ↦ by cases he) fun ps ↦ ?_
      have hunknown : (Error.construction (.unknownGeneric ns name)).SparesEntries :=
        .construction _
      refine spares_tryPrototypes (fun c ↦ (hpopulate name parameters internal rfl c).bind
        fun _ d _ _ ↦ .pure (d.withInternal internal)) (fun c q hq ↦ ?_) _ hunknown ps hp
      exact (h c q hq).bind fun d _ _ ↦ .pure _
    | _ => exact .throw (.structural _)
  -- Arrays, texts and rule sets are read; in all other namespaces there are components.
  cases ns with
  | array => exact .bind_ask (fun _ ↦ Context.sparesEntries_of_textsOf) fun items ↦ .pure _
  | value => exact .bind_ask (fun _ ↦ Context.sparesEntries_of_textOf) fun s ↦ .pure _
  | ruleSet => exact .bind_liftM (fun _ ↦ RuleSet.sparesEntries_of_ofTerm) fun s ↦ .pure _
  | _ => exact (hcomponent _).bind fun c _ _ ↦ .pure _

/-- Looking for an entry before building one adds no error about names. -/
theorem spares_matchOr {b : Build Kept} (h : Spares b p) : Spares (matchOr t ns b) p := by
  refine .bind_ask (fun _ ↦ Context.sparesEntries_of_singleMatch) fun k? ↦ ?_
  cases k? with
  | none => exact h
  | some k => exact .pure k

/-- **An entry that is kept on the way does not meet a name that is taken.** -/
theorem spares_findOrKeep {populate : Component → Build Component}
    (hpopulate : Populates populate t) (h : PopulatesSparing populate) (hp : p.context.Coherent) :
    Spares (findOrKeep populate t ns) p := by
  refine spares_matchOr ((Spares.of_ok rfl).bind fun name q hmint ↦ ?_)
  cases hmint
  have hq : (p.context.withCounter (p.context.nextNumber ns + 1)).Coherent :=
    (Context.Raised.mint p.context ns).coherent hp
  refine (spares_content hpopulate h hq).bind fun x q' hcontent ↦ spares_matchOr fun e he ↦ ?_
  -- The name was minted in front, and what the object needed has taken other names.
  obtain ⟨-, hx⟩ := (meets_content hpopulate).of_outcome hq hcontent
  rw [outcome_keep, hx.minted_free hp] at he
  cases he

mutual

/-- **Getting an entry, or building one, spares entries.** -/
theorem spares_findOrBuild : (t : Term) → (ns : Namespace) → {p : Progress} →
    p.context.Coherent → Spares (findOrBuild t ns) p
  | .reference name, ns, p, _ => by
    rw [findOrBuild]
    exact .ask fun _ ↦ Context.sparesEntries_of_referred
  | .call name ⟨es, form⟩ internal, ns, p, hp => by
    have hpopulate : Populates (fun c ↦ populate name c.names 0 es c)
        (.call name ⟨es, form⟩ internal) := by
      rintro _ _ _ ⟨rfl, rfl, rfl⟩ c
      exact meets_populate name c.names 0 es c
    rw [findOrBuild]
    exact spares_findOrKeep hpopulate (fun c q hq ↦ spares_populate name c.names 0 es c hq) hp
  | .text _, ns, p, hp | .capture _, ns, p, hp | .array _, ns, p, hp | .listing _, ns, p, hp
  | .rule _ _, ns, p, hp => by
    rw [findOrBuild_of_data]
    · exact spares_findOrKeep nofun (fun c _ _ ↦ .pure c) hp
    · rfl
    · nofun

/-- Setting the parameters of a component spares entries. -/
theorem spares_populate (generic : String) (names : List String) (index : Nat) :
    (es : List (Entry Term)) → (c : Component) → {p : Progress} → p.context.Coherent →
      Spares (populate generic names index es c) p
  | [], c, p, _ => by
    rw [populate]
    exact .pure c
  | ⟨label, modifiers, t⟩ :: es, c, p, hp => by
    have hfind (ns : Namespace) : Spares (findOrBuild t ns) p := spares_findOrBuild t ns hp
    rw [populate]
    -- In turn: the name of the parameter, its kind, its value, and setting it.
    refine .bind_liftM (fun e he ↦ ?_) fun name ↦ .bind_liftM (fun e he ↦ ?_) fun kind ↦ ?_
    · rw [parameterName] at he
      split at he
      · cases he
      · split at he
        · cases he
        · cases he
          exact .construction _
    · rw [parameterKind] at he
      split at he
      · cases he
      · cases he
        exact .construction _
    · refine (spares_resolve hfind kind).bind fun r q hr ↦
        .bind_liftM (fun _ ↦ Component.sparesEntries_of_set) fun c' ↦ ?_
      obtain ⟨hq, -⟩ := (meets_resolve (meets_findOrBuild t) kind).of_outcome hp hr
      exact spares_populate generic names (index + 1) es c' hq

end

/-- Setting the parameters that a definition has spares entries. -/
theorem spares_populateFrom (t : Term) : PopulatesSparing (populateFrom t) := by
  intro c q hq
  cases t with
  | call name parameters _ => exact spares_populate name c.names 0 parameters.entries c hq
  | _ => exact .pure c

/-- Under a free name, an object is built and kept. -/
theorem outcome_construct_named {name : String} (hfree : p.context.contains ns name = false) :
    outcome (construct ns (some name) t) p =
      outcome (content (populateFrom t) t ns >>= keep ns name) p := by
  have hname : outcome (nameFor ns (some name)) p = (.ok name, p) := by
    rw [nameFor, outcome_bind, outcome_ask, Context.checkFree, hfree]
    rfl
  rw [construct, outcome_bind_ok hname]

/-- **What a construction fails with** says of no entry that its name is taken, unless of the new
one under its given name, which was there before or was minted on the way. -/
theorem error_of_construct (hp : p.context.Coherent) {name? : Option String} {e : Error}
    (he : (outcome (construct ns name? t) p).1 = .error e) :
    e.SparesEntries ∨ ∃ name, name? = some name ∧ e = .duplicateName ns.tag name ∧
      (p.context.contains ns name = true ∨
        p.context.Minted (outcome (construct ns name? t) p).2.context name) := by
  have hpopulate := populates_populateFrom t
  have hcontent {q : Progress} (hq : q.context.Coherent) :
      Spares (content (populateFrom t) t ns) q :=
    spares_content hpopulate (spares_populateFrom t) hq
  -- A new entry without a given name is kept under a minted one, which is free.
  cases name? with
  | none =>
    have hmint : Spares (mint ns) p := .of_ok rfl
    have hq : (p.context.withCounter (p.context.nextNumber ns + 1)).Coherent :=
      (Context.Raised.mint p.context ns).coherent hp
    refine .inl (hmint.bind (fun name q ho ↦ ?_) e he)
    cases ho
    refine (hcontent hq).bind fun x q' hx e he ↦ ?_
    obtain ⟨-, hbuilds⟩ := (meets_content hpopulate).of_outcome hq hx
    rw [outcome_keep, hbuilds.minted_free hp] at he
    cases he
  | some name =>
    cases hfree : p.context.contains ns name with
    | true =>
      refine .inr ⟨name, rfl, ?_, .inl hfree⟩
      rw [construct, nameFor, bind_assoc, outcome_bind, outcome_ask, Context.checkFree, hfree] at he
      cases he
      rfl
    | false =>
      rw [outcome_construct_named hfree, outcome_bind] at he ⊢
      have hspares : ∀ e, (outcome (content (populateFrom t) t ns) p).1 = .error e → _ :=
        hcontent hp
      have hmeets : Meets (content (populateFrom t) t ns) _ := meets_content hpopulate
      have hbuilds := fun x q ↦ hmeets.of_outcome hp (a := x) (q := q)
      generalize outcome (content (populateFrom t) t ns) p = o at he hspares hbuilds ⊢
      obtain ⟨r, q⟩ := o
      cases r with
      | error e' =>
        cases he
        exact .inl (hspares e rfl)
      | ok x =>
        simp only [outcome_keep] at he ⊢
        -- The name was free at the beginning. If it is taken now, then by an entry that was built
        -- for the definition, under a number that was minted for it.
        cases htaken : q.context.contains ns name with
        | false =>
          rw [htaken] at he
          cases he
        | true =>
          rw [htaken] at he
          cases he
          rw [if_pos rfl]
          exact .inr ⟨name, rfl, rfl, (hbuilds x q rfl).2.contains_or_minted trivial htaken⟩

end Build

end TermRegistry
