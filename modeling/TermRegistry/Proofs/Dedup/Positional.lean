import TermRegistry.Proofs.Dedup.Internal
import TermRegistry.Proofs.Matching.Reflexivity
import TermRegistry.Proofs.Naming.Minting
import TermRegistry.Proofs.References

/-!
# Positional and named spellings

A positional parameter takes the name at its place among the declared parameters. So a definition is
built alike however it is spelled (`Builds.spelled`), and what is stored is its named spelling, with
the defaults of the parameters that were not given (`Builds.toTerm_positional`).

Entries are looked for by the definition as it is spelled, though, and a positional listing matches
no named one. The named spelling finds the entry that was made for the positional one, but asking
for the positional one again never does, unless it has no parameters: it makes another entry with
the same term, and from then on the named spelling is ambiguous
(`Context.getOrConstruct_positional`).

**Design.** The named spelling matches the stored term in pairs of equal values, so what comes out
is what comes out of matching it with itself (`Term.matching_of_pairing_self`): a match if captures
lead. Other entries play no part as long as none of them has the same name. That a definition is
accepted again is proved for texts, which are set alike in any context (`Builds.outcome_content`):
the definitions inside another one may well come to match several entries meanwhile.
-/

namespace TermRegistry

/-! ### The named spelling -/

namespace Parameter

/-- Values under the names of declared parameters, in order. -/
def spell (schema : List Parameter) (values : List Term) : List (Entry Term) :=
  List.zipWith (fun q v ↦ ⟨.named q.name, [], v⟩) schema values

/-- The defaults of declared parameters under their names. -/
def defaults (schema : List Parameter) : List (Entry Term) :=
  schema.filterMap fun q ↦ q.default?.map fun v ↦ ⟨.named q.name, [], v⟩

variable {schema : List Parameter} {values : List Term}

theorem spell_nil (schema : List Parameter) : spell schema [] = [] := List.zipWith_nil_right

theorem isSome_name?_of_mem_spell {e : Entry Term} (h : e ∈ spell schema values) :
    e.name?.isSome = true := by
  rw [spell, ← List.map_uncurry_zip_eq_zipWith] at h
  obtain ⟨d, -, rfl⟩ := List.mem_map.1 h
  rfl

theorem isPositional_spell (schema : List Parameter) (values : List Term) (form : Form) :
    (⟨spell schema values, form⟩ : Listing Term).isPositional = false := by
  cases schema <;> cases values <;> rfl

theorem values_spell (h : values.length ≤ schema.length) :
    (spell schema values).map (·.value) = values := by
  rw [spell, List.map_zipWith]
  exact (List.map_uncurry_zip_eq_zipWith ..).symm.trans (List.map_snd_zip h)

theorem names_spell (schema : List Parameter) (values : List Term) :
    (spell schema values).filterMap (·.name?) = (schema.map (·.name)).take values.length := by
  induction values generalizing schema with
  | nil => rw [spell_nil]; rfl
  | cons v values ih =>
    cases schema with
    | nil => rfl
    | cons q schema => exact congrArg (q.name :: ·) (ih schema)

/-- The named spelling has each name once, if every parameter has its own. -/
theorem distinct_spell (h : (schema.map (·.name)).Nodup) (values : List Term) :
    Listing.Distinct (spell schema values) := by
  refine ⟨.inl fun e he ↦ isSome_name?_of_mem_spell he, ?_⟩
  rw [names_spell]
  exact h.sublist (List.take_sublist _ _)

/-- **What declared parameters answer with**: the values that are spelled for them, and the defaults
behind these. -/
theorem filterMap_spell (hnodup : (schema.map (·.name)).Nodup)
    (hlen : values.length ≤ schema.length) :
    (schema.filterMap fun q ↦ (((⟨spell schema values, .parameters⟩ : Listing Term).get?
      q.name).or q.default?).map fun v ↦ (⟨.named q.name, [], v⟩ : Entry Term)) =
      spell schema values ++ defaults (schema.drop values.length) := by
  induction values generalizing schema with
  | nil => rw [spell_nil]; rfl
  | cons v values ih =>
    cases schema with
    | nil => cases hlen
    | cons q schema =>
      rw [List.map_cons, List.nodup_cons] at hnodup
      -- The names of a schema are distinct. So the first value is found under the first name only,
      -- and the other names find what they find in the rest.
      have hrest : ∀ r ∈ schema,
          (⟨spell (q :: schema) (v :: values), .parameters⟩ : Listing Term).get? r.name =
            (⟨spell schema values, .parameters⟩ : Listing Term).get? r.name := by
        intro r hr
        have hne : q.name ≠ r.name := fun heq ↦ hnodup.1 (List.mem_map.2 ⟨r, hr, heq.symm⟩)
        rw [Listing.get?, Listing.get?]
        refine congrArg (Option.map _) (List.find?_cons_of_neg ?_)
        simpa [Entry.name?, Label.name?] using hne
      have hfirst : (⟨spell (q :: schema) (v :: values), .parameters⟩ : Listing Term).get? q.name =
          some v := by
        refine congrArg (Option.map _) (List.find?_cons_of_pos ?_)
        exact beq_self_eq_true _
      rw [List.filterMap_cons_some (by rw [hfirst]; rfl)]
      refine congrArg _ ((List.filterMap_congr fun r hr ↦ ?_).trans
        (ih hnodup.2 (Nat.le_of_succ_le_succ hlen)))
      rw [hrest r hr]

end Parameter

/-! ### Building -/

/-- A fresh component answers with the defaults of its parameters. -/
theorem Prototype.get?_ofSchema {schema : List Parameter} (h : (schema.map (·.name)).Nodup)
    (ns : Namespace) (name : String) {q : Parameter} (hq : q ∈ schema) :
    (ofSchema ns name schema).instantiate.get? q.name = q.default? := by
  have hsome : (schema.find? (·.name == q.name)).isSome = true :=
    List.find?_isSome.2 ⟨q, hq, beq_self_eq_true _⟩
  obtain ⟨r, hr⟩ := Option.isSome_iff_exists.1 hsome
  have hname : r.name = q.name := by simpa using List.find?_some hr
  obtain rfl := List.inj_on_of_nodup_map h (List.mem_of_find?_eq_some hr) hq hname
  show (schema.find? (·.name == r.name)).bind (·.default?) = r.default?
  rw [hr]
  rfl

/-- A fresh component has the declared kinds. -/
theorem Prototype.exists_kind {schema : List Parameter} {ns : Namespace} {name n : String}
    {kind : ParameterKind} (h : (ofSchema ns name schema).instantiate.kind? n = some kind) :
    ∃ q ∈ schema, q.kind = kind := by
  have hfound : (schema.find? (·.name == n)).map (·.kind) = some kind := h
  obtain ⟨q, hq, hkind⟩ := Option.map_eq_some_iff.1 hfound
  exact ⟨q, List.mem_of_find?_eq_some hq, hkind⟩

namespace Builds

variable {ctx ctx' : Context} {generic : String} {names : List String} {index : Nat}
  {es : List (Entry Term)} {c c' : Component} {schema : List Parameter}

/-- Setting parameters changes nothing else about a component. -/
theorem frame_parameters (h : Builds ctx (.parameters generic names index es c c') ctx') :
    c'.genericName = c.genericName ∧ c'.schema? = c.schema? ∧ c'.internal? = c.internal? := by
  induction es generalizing ctx c index with
  | nil =>
    cases h
    exact ⟨rfl, rfl, rfl⟩
  | cons e es ih =>
    cases h with
    | parameter _ _ _ hset hrest =>
      obtain ⟨hgeneric, hschema, hinternal⟩ := ih hrest
      rw [hgeneric, hschema, hinternal, (Component.eq_of_set hset).2]
      exact ⟨rfl, rfl, rfl⟩

/-- A parameter that is set by its name answers with what is written for it, and the others answer
as before. -/
theorem get?_named (h : Builds ctx (.parameters generic names index es c c') ctx')
    (hnamed : ∀ e ∈ es, e.name?.isSome = true) (hnodup : (es.filterMap (·.name?)).Nodup)
    (n : String) : c'.get? n = ((⟨es, .parameters⟩ : Listing Term).get? n).or (c.get? n) := by
  induction es generalizing ctx c index with
  | nil =>
    cases h
    rfl
  | cons e es ih =>
    cases h with
    | @parameter _ _ _ _ _ _ _ _ _ c₁ _ name _ r hname _ _ hset hrest =>
      obtain ⟨m, hm⟩ := Option.isSome_iff_exists.1 (hnamed e List.mem_cons_self)
      have hlabel : e.label.name? = some m := hm
      rw [Build.parameterName, hlabel] at hname
      obtain rfl : m = name := Except.ok.inj hname
      rw [List.filterMap_cons_some hm, List.nodup_cons] at hnodup
      rw [ih hrest (fun f hf ↦ hnamed f (List.mem_cons_of_mem e hf)) hnodup.2,
        Component.get?_set hset]
      by_cases hn : n = m
      · -- No entry further behind has the name.
        have hnone : (⟨es, .parameters⟩ : Listing Term).get? n = none := by
          rw [Listing.get?, Option.map_eq_none_iff, List.find?_eq_none]
          intro f hf hfn
          exact hnodup.1 (List.mem_filterMap.2 ⟨f, hf, hn ▸ eq_of_beq hfn⟩)
        have hfirst : (⟨e :: es, .parameters⟩ : Listing Term).get? n = some e.value := by
          refine congrArg (Option.map _) (List.find?_cons_of_pos ?_)
          exact beq_iff_eq.2 (hn ▸ hm)
        rw [hnone, hfirst, if_pos hn]
        rfl
      · have hrest : (⟨e :: es, .parameters⟩ : Listing Term).get? n =
            (⟨es, .parameters⟩ : Listing Term).get? n := by
          refine congrArg (Option.map _) (List.find?_cons_of_neg ?_)
          rw [hm]
          exact fun heq ↦ hn (Option.some.inj (eq_of_beq heq)).symm
        rw [hrest, if_neg hn]

/-- **Positional parameters are set like named ones** under the names at their places. -/
theorem spelled (h : Builds ctx (.parameters generic (schema.map (·.name)) index es c c') ctx')
    (hpositional : ∀ e ∈ es, e.name? = none) :
    es.length ≤ (schema.drop index).length ∧
      Builds ctx (.parameters generic (schema.map (·.name)) index
        (Parameter.spell (schema.drop index) (es.map (·.value))) c c') ctx' := by
  induction es generalizing ctx c index with
  | nil =>
    cases h
    rw [List.map_nil, Parameter.spell_nil]
    exact ⟨Nat.zero_le _, .noParameters⟩
  | cons e es ih =>
    cases h with
    | @parameter _ _ _ _ _ _ _ _ _ _ _ name _ _ hname hkind hr hset hrest =>
      obtain ⟨he, hes⟩ := List.forall_mem_cons.1 hpositional
      have hlabel : e.label.name? = none := he
      rw [Build.parameterName, hlabel] at hname
      dsimp only at hname
      split at hname
      · next n hn =>
        obtain rfl : n = name := Except.ok.inj hname
        rw [List.getElem?_map] at hn
        obtain ⟨q, hq, rfl⟩ := Option.map_eq_some_iff.1 hn
        obtain ⟨hindex, hq⟩ := List.getElem?_eq_some_iff.1 hq
        have hdrop : schema.drop index = q :: schema.drop (index + 1) := by
          rw [List.drop_eq_getElem_cons hindex, hq]
        obtain ⟨hlen, hspelled⟩ := ih hrest hes
        rw [hdrop]
        exact ⟨Nat.succ_le_succ hlen, .parameter rfl hkind hr hset hspelled⟩
      · cases hname

/-- **What is stored of a positional definition** is its named spelling, with the defaults of the
parameters that are not given, and the named spelling is paired with itself in it. -/
theorem toTerm_positional {ns : Namespace} {name : String} {l : Listing Term}
    {internal : Option (List (Entry Term))} {x : Content}
    (h : Builds ctx (.content (.call name l internal) ns x) ctx') (hns : ns ≠ .ruleSet)
    (hprototypes : ctx.factories.prototypes ns name = [.ofSchema ns name schema])
    (hschema : (schema.map (·.name)).Nodup) (hpositional : ∀ e ∈ l.entries, e.name? = none) :
    l.values.length ≤ schema.length ∧
    x.toTerm = .call name ⟨Parameter.spell schema l.values ++
      Parameter.defaults (schema.drop l.values.length), .parameters⟩ internal ∧
    (Term.call name ⟨Parameter.spell schema l.values, l.form⟩ internal).pairing x.toTerm =
      some (l.values.map fun v ↦ (v, v)) := by
  cases h with
  | array h => cases h
  | value h => cases h
  | ruleSet => exact absurd rfl hns
  | @component _ ctx₁ _ _ _ _ _ p c _ _ hp _ h =>
    rw [hprototypes] at hp
    obtain rfl := List.mem_singleton.1 hp
    have hset : Builds ctx₁ (.parameters name (schema.map (·.name)) 0 l.entries _ c) ctx' := h
    obtain ⟨hlen, hspelled⟩ := hset.spelled hpositional
    rw [List.drop_zero] at hlen hspelled
    have hlen' : l.values.length ≤ schema.length := (List.length_map _).trans_le hlen
    obtain ⟨hgeneric, hsame, hinternal⟩ := h.frame_parameters
    have hdistinct := Parameter.distinct_spell hschema l.values
    have hnamed : ∀ e ∈ Parameter.spell schema l.values, e.name?.isSome = true :=
      fun e he ↦ Parameter.isSome_name?_of_mem_spell he
    have hparameters : c.parameters = ⟨Parameter.spell schema l.values ++
        Parameter.defaults (schema.drop l.values.length), .parameters⟩ := by
      rw [Component.parameters, Component.names, hsame]
      refine congrArg (Listing.mk · .parameters) (List.filterMap_map.trans ?_)
      rw [← Parameter.filterMap_spell hschema hlen']
      refine List.filterMap_congr fun q hq ↦ congrArg (Option.map _) ?_
      rw [← Prototype.get?_ofSchema hschema ns name hq]
      exact hspelled.get?_named hnamed hdistinct.2 q.name
    have hterm : (c.withInternal internal).toTerm = .call name c.parameters internal := by
      cases internal with
      | none =>
        rw [Component.withInternal, Component.toTerm_eq, hgeneric, hinternal]
        rfl
      | some inside =>
        show Term.call c.genericName c.parameters (some inside) = _
        rw [hgeneric]
        rfl
    refine ⟨hlen', ?_, ?_⟩
    · show (c.withInternal internal).toTerm = _
      rw [hterm, hparameters]
    -- What is set is paired with itself, and there is nothing else in the named spelling.
    · obtain ⟨ds, hds, hself⟩ := Component.pairing_parameters
        hdistinct (Parameter.isPositional_spell schema l.values l.form)
        (hspelled.writes hnamed hdistinct.2).2.1
      have hvalues : ds.map Prod.fst = l.values :=
        (Listing.map_fst_pairing hds).trans (Parameter.values_spell hlen')
      have hpairs : ds = l.values.map fun v ↦ (v, v) := by
        rw [← hvalues, List.map_map]
        exact (List.map_id _).symm.trans
          (List.map_congr_left fun d hd ↦ Prod.ext rfl (hself d hd))
      show (Term.call name _ internal).pairing (c.withInternal internal).toTerm = _
      rw [hterm, Term.pairing, if_pos rfl, hds, hpairs]

/-- Where there are no parameters, nothing is kept. -/
theorem inNamespace_of_no_parameters {ns ns' : Namespace} {name : String} {l : Listing Term}
    {internal : Option (List (Entry Term))} {x : Content}
    (h : Builds ctx (.content (.call name l internal) ns x) ctx') (hns : ns ≠ .ruleSet)
    (hnil : l.entries = []) : ctx'.inNamespace ns' = ctx.inNamespace ns' := by
  cases h with
  | array htexts => cases htexts
  | value htext => cases htext
  | ruleSet => exact absurd rfl hns
  | component _ _ _ hraised hparameters =>
    rw [hnil] at hparameters
    cases hparameters
    exact hraised.inNamespace_eq ns'

end Builds

/-! ### Building again -/

/-- A positional definition is no composition. -/
theorem Context.checkFamily_positional {ctx : Context} {l : Listing Term}
    (h : ∀ e ∈ l.entries, e.name? = none) (ns : Namespace) (name : String)
    (internal : Option (List (Entry Term))) :
    ctx.checkFamily ns (.call name l internal) = .ok () := by
  have hnone : (Term.call name l internal).composition? = none := by
    rw [Term.composition?.eq_def]
    split
    · next f g form _ heq =>
      cases heq
      refine if_neg fun hcomposite ↦ ?_
      have hnames := (Term.isComposite_iff.1 hcomposite).2.2
      rw [List.map_cons, h f List.mem_cons_self] at hnames
      cases hnames
    · rfl
  rw [checkFamily, hnone, Option.isSome_none, Bool.and_false]
  rfl

namespace Builds

variable {ctx ctx' : Context} {generic : String} {names : List String} {index : Nat}
  {es : List (Entry Term)} {c c' : Component}

/-- **Texts are set alike in any context**, where no parameter takes an entry. -/
theorem outcome_populate (h : Builds ctx (.parameters generic names index es c c') ctx')
    (htexts : ∀ e ∈ es, ∃ s, e.value = .text s)
    (hkinds : ∀ n ns, c.kind? n ≠ some (.entry ns)) (p : Progress) :
    Build.outcome (Build.populate generic names index es c) p = (.ok c', p) := by
  induction es generalizing ctx c index with
  | nil =>
    cases h
    rw [Build.populate]
    rfl
  | cons e es ih =>
    cases h with
    | @parameter _ _ _ _ _ _ _ _ _ c₁ _ name kind r hname hkind hr hset hrest =>
      obtain ⟨⟨s, hs⟩, hes⟩ := List.forall_mem_cons.1 htexts
      obtain ⟨label, modifiers, t⟩ := e
      obtain rfl : t = .text s := hs
      -- A text is resolved without a context, as no parameter refers to entries.
      have hresolve : Build.outcome (Build.resolve (fun ns ↦ Build.findOrBuild (.text s) ns)
          (.text s) kind) p = (.ok r, p) := by
        cases hr with
        | text h | settled h =>
          cases h
          rfl
        | entry => exact absurd (Build.kind?_of_parameterKind hkind) (hkinds name _)
        | texts h | function h | definition h => cases h
      have hkinds₁ (n : String) (ns : Namespace) : c₁.kind? n ≠ some (.entry ns) := by
        rw [Component.kind?_set hset]
        exact hkinds n ns
      have hlift {α : Type} {x : Except Error α} {a : α} (hx : x = .ok a) :
          Build.outcome (liftM x : Build α) p = (.ok a, p) := by
        rw [Build.outcome_liftM, hx]
      rw [Build.populate, Build.outcome_bind_ok (hlift hname), Build.outcome_bind_ok (hlift hkind),
        Build.outcome_bind_ok hresolve, Build.outcome_bind_ok (hlift hset)]
      exact ih hrest hes hkinds₁

/-- **A positional definition with texts is built alike in any context** with the same factories. -/
theorem outcome_content {ns : Namespace} {name : String} {l : Listing Term}
    {internal : Option (List (Entry Term))} {x : Content} {q : Prototype}
    (h : Builds ctx (.content (.call name l internal) ns x) ctx') (hns : ns ≠ .ruleSet)
    (hprototypes : ctx.factories.prototypes ns name = [q])
    (hpositional : ∀ e ∈ l.entries, e.name? = none)
    (htexts : ∀ e ∈ l.entries, ∃ s, e.value = .text s)
    (hkinds : ∀ n ns, q.instantiate.kind? n ≠ some (.entry ns)) (p : Progress)
    (hp : p.context.factories = ctx.factories) :
    Build.outcome (Build.content (Build.populateFrom (.call name l internal))
      (.call name l internal) ns) p = (.ok x, p) := by
  cases h with
  | array htexts => cases htexts
  | value htext => cases htext
  | ruleSet => exact absurd rfl hns
  | @component _ _ _ _ _ _ _ _ c hns _ hq _ hset =>
    rw [hprototypes] at hq
    obtain rfl := (List.mem_singleton.1 hq).symm
    have hfill : Build.outcome (Build.fill (Build.populateFrom (.call name l internal)) internal
        q.instantiate) p = (.ok (c.withInternal internal), p) :=
      Build.outcome_bind_ok (hset.outcome_populate htexts hkinds p) _
    have hcomponent : Build.outcome (Build.component (Build.populateFrom (.call name l internal)) ns
        (.call name l internal)) p = (.ok (c.withInternal internal), p) := by
      have hfamily : Build.outcome (Build.ask fun ctx ↦ ctx.checkFamily ns (.call name l internal))
          p = (.ok (), p) := by
        rw [Build.outcome_ask, Context.checkFamily_positional hpositional]
      have hask : Build.outcome (Build.ask fun ctx ↦ .ok (ctx.factories.prototypes ns name)) p =
          (.ok [q], p) := by
        rw [Build.outcome_ask, hp, hprototypes]
      rw [Build.component, Build.outcome_bind_ok hfamily, Build.outcome_bind_ok hask,
        Build.tryPrototypes, Build.outcome_tryCatch, Build.outcome_undoing, hfill]
    have hcontent : Build.content (Build.populateFrom (.call name l internal))
        (.call name l internal) ns = (do return .component (← Build.component
          (Build.populateFrom (.call name l internal)) ns (.call name l internal))) := by
      cases ns with
      | array | value | ruleSet => simp at hns
      | _ => rfl
    rw [hcontent, Build.outcome_bind_ok hcomponent]
    rfl

end Builds

/-! ### What a definition cannot match -/

namespace Term

variable {name : String} {l : Listing Term} {internal : Option (List (Entry Term))} {p c : Term}

/-- Shapes that differ are no match, over any storage. -/
theorem matching_of_mismatch (s : Storage) (hp : p.isConcrete = true) (hc : c.reference? = none)
    (h : ∀ step b, Matching.matchShape step p c b = .error .mismatch) :
    p.matching s c = .ok none := by
  rw [Term.matching, Matching.depthBound, Matching.matchWithin_shape hp hc, h]

/-- A call matches no entry of another name. -/
theorem matching_of_callName? (s : Storage) {k : Kept} (h : k.toTerm.callName? ≠ some name) :
    (call name l internal).matching s k.toTerm = .ok none := by
  refine matching_of_mismatch s rfl k.reference?_toTerm fun step b ↦ ?_
  generalize k.toTerm = c at h ⊢
  cases c with
  | call n l' internal' => exact if_neg fun heq ↦ h (congrArg some heq.symm)
  | _ => rfl

/-- **A positional definition with parameters matches no entry at all**: the parameters in the term
of an entry are named. -/
theorem matching_positional (s : Storage) (k : Kept) (hne : l.entries ≠ [])
    (hpositional : ∀ e ∈ l.entries, e.name? = none) :
    (call name l internal).matching s k.toTerm = .ok none := by
  have hnamed : l.isNamed = false := by
    obtain ⟨e, es, hes⟩ := List.exists_cons_of_ne_nil hne
    rw [Listing.isNamed, hes]
    exact congrArg Option.isSome (hpositional e (hes ▸ List.mem_cons_self))
  have hsize : 0 < l.size := List.length_pos_iff.2 hne
  refine matching_of_mismatch s rfl k.reference?_toTerm fun step b ↦ ?_
  obtain ⟨ns, n, id, content⟩ := k
  cases content with
  | component c =>
    -- Either the names differ, or the component has too few parameters, or its parameters are named
    -- and those of the definition are not.
    show (if name = c.genericName then Matching.matchListing step l c.parameters b else _) = _
    split
    · rw [Matching.matchListing]
      split
      · rfl
      · next hle =>
        have hparameters : c.parameters.isNamed = true := by
          refine Component.isNamed_parameters fun hnil ↦ ?_
          rw [Listing.size, hnil] at hle
          exact hle hsize
        rw [if_neg (by rwa [Listing.isEmpty, List.isEmpty_iff]), hnamed, hparameters]
        rfl
    · rfl
  | rules rs =>
    show (if name = _ then Matching.matchListing step l {} b else _) = _
    split
    · exact if_pos hsize
    · rfl
  | texts | text => rfl

end Term

namespace Context

variable {ctx ctx' : Context} {ns : Namespace} {name : String} {l : Listing Term}
  {internal : Option (List (Entry Term))} {t : Term}

/-- If nothing is a match, there is no single match. -/
theorem singleMatch_of_unmatched
    (h : ∀ k ∈ ctx.inNamespace ns, t.matching ctx.storage k.toTerm = .ok none) :
    ctx.singleMatch ns t = .ok none := by
  have hmatched : matched ctx.storage t (ctx.inNamespace ns) = .ok [] := by
    refine (matched_eq_ok (P := fun _ ↦ False) fun k hk ↦ ⟨none, h k hk, ?_⟩).trans ?_
    · exact ⟨nofun, False.elim⟩
    · exact congrArg _ (List.filter_false _)
  rw [singleMatch, hmatched]
  rfl

/-! ### What is made -/

/-- **What matches nothing is made**, if it matches nothing either when its content is built. -/
theorem exists_made {k : Kept} (h : Builds ctx (.entry t ns k) ctx')
    (ht : t.reference? = none) (hnone : ctx.singleMatch ns t = .ok none)
    (hlater : ∀ n x ctx₁, Builds (ctx.withCounter n) (.content t ns x) ctx₁ →
      ctx₁.singleMatch ns t = .ok none) :
    ∃ n x ctx₁, ctx.Raised (ctx.withCounter n) ∧ Builds (ctx.withCounter n) (.content t ns x) ctx₁ ∧
      ctx₁.contains ns k.name = false ∧ (k, ctx') = ctx₁.keep ns k.name x := by
  cases h with
  | referred => cases ht
  | matched _ h =>
    rw [hnone] at h
    cases h
  | matchedLater _ _ hx h =>
    rw [hlater _ _ _ hx] at h
    cases h
  | made _ _ hx _ hfree => exact ⟨_, _, _, .mint ctx ns, hx, hfree, rfl⟩

/-- A positional definition is made whenever it is asked for, if it has parameters or if no entry
has its name. -/
theorem exists_made_positional {k : Kept}
    (h : Builds ctx (.entry (.call name l internal) ns k) ctx') (hns : ns ≠ .ruleSet)
    (hpositional : ∀ e ∈ l.entries, e.name? = none)
    (hother : l.entries = [] → ∀ j ∈ ctx.inNamespace ns, j.toTerm.callName? ≠ some name) :
    ∃ n x ctx₁, ctx.Raised (ctx.withCounter n) ∧
      Builds (ctx.withCounter n) (.content (.call name l internal) ns x) ctx₁ ∧
      ctx₁.contains ns k.name = false ∧ (k, ctx') = ctx₁.keep ns k.name x := by
  by_cases hnil : l.entries = []
  · have hnone : ctx.singleMatch ns (.call name l internal) = .ok none :=
      singleMatch_of_unmatched fun j hj ↦ Term.matching_of_callName? _ (hother hnil j hj)
    refine exists_made h rfl hnone fun n x ctx₁ hx ↦ singleMatch_of_unmatched fun j hj ↦ ?_
    rw [hx.inNamespace_of_no_parameters hns hnil] at hj
    exact Term.matching_of_callName? _ (hother hnil j hj)
  · have hnone (ctx : Context) : ctx.singleMatch ns (.call name l internal) = .ok none :=
      singleMatch_of_unmatched fun j _ ↦ Term.matching_positional _ j hnil hpositional
    exact exists_made h rfl (hnone ctx) fun _ _ ctx₁ _ ↦ hnone ctx₁

/-- **A positional definition with texts is accepted in any context**, if it is built somewhere with
the same factories. -/
theorem exists_getOrConstruct_positional {after : Context} {x : Content} {q : Prototype}
    (h : Builds ctx (.content (.call name l internal) ns x) ctx') (hns : ns ≠ .ruleSet)
    (hprototypes : ctx.factories.prototypes ns name = [q]) (hne : l.entries ≠ [])
    (hpositional : ∀ e ∈ l.entries, e.name? = none)
    (htexts : ∀ e ∈ l.entries, ∃ s, e.value = .text s)
    (hkinds : ∀ n ns, q.instantiate.kind? n ≠ some (.entry ns)) (hafter : after.Coherent)
    (hfactories : after.factories = ctx.factories) :
    ∃ k, (after.getOrConstruct ns (.call name l internal)).result = .ok k := by
  have hnone : after.singleMatch ns (.call name l internal) = .ok none :=
    singleMatch_of_unmatched fun j _ ↦ Term.matching_positional _ j hne hpositional
  have hfree : (after.withCounter (after.nextNumber ns + 1)).contains ns
      (after.nextNumber ns).repr = false :=
    ((Raised.mint after ns).contains_eq ns _).trans (hafter.nextNumber_free ns)
  obtain ⟨hresult, -⟩ := getOrConstruct_of_unmatched rfl hnone hfree fun p hp ↦
    h.outcome_content hns hprototypes hpositional htexts hkinds p (hp.trans hfactories)
  exact ⟨_, hresult⟩

/-- **An entry that was made for a positional definition**: it comes last in its namespace, its term
is the named spelling with the defaults behind it, and that spelling is paired with itself. -/
structure Made (ctx : Context) (ns : Namespace) (name : String) (schema : List Parameter)
    (l : Listing Term) (internal : Option (List (Entry Term))) (k : Kept) (after : Context) :
    Prop where
  free : ctx.find? ns k.name = none
  last : ∃ ks, after.inNamespace ns = ks ++ [k] ∧ k ∉ ks ∧ ctx.inNamespace ns ⊆ ks ∧
    (l.entries = [] → ks = ctx.inNamespace ns)
  toTerm_eq : k.toTerm = .call name ⟨Parameter.spell schema l.values ++
    Parameter.defaults (schema.drop l.values.length), .parameters⟩ internal
  pairing_eq : (Term.call name ⟨Parameter.spell schema l.values, l.form⟩ internal).pairing
    k.toTerm = some (l.values.map fun v ↦ (v, v))

theorem made_positional {after : Context} {k : Kept} {schema : List Parameter}
    (h : Builds ctx (.entry (.call name l internal) ns k) after) (hc : ctx.Coherent)
    (hns : ns ≠ .ruleSet)
    (hprototypes : ctx.factories.prototypes ns name = [.ofSchema ns name schema])
    (hschema : (schema.map (·.name)).Nodup) (hpositional : ∀ e ∈ l.entries, e.name? = none)
    (hother : l.entries = [] → ∀ j ∈ ctx.inNamespace ns, j.toTerm.callName? ≠ some name) :
    Made ctx ns name schema l internal k after := by
  obtain ⟨n, x, ctx₁, hraised, hx, hfree, hkeep⟩ := exists_made_positional h hns hpositional hother
  obtain ⟨js, hgrows⟩ := hx.grows
  have hc₁ : ctx₁.Coherent := hgrows.coherent (hraised.coherent hc)
  obtain ⟨-, hterm, hpairing⟩ := hx.toTerm_positional hns hprototypes hschema hpositional
  have hk : k = (ctx₁.keep ns k.name x).1 := congrArg Prod.fst hkeep
  have hafter : after = (ctx₁.keep ns k.name x).2 := congrArg Prod.snd hkeep
  have hkx : k.toTerm = x.toTerm := congrArg Kept.toTerm hk
  have hfind {j : Kept} {m : String} (h : ctx.find? ns m = some j) : ctx₁.find? ns m = some j :=
    hgrows.find?_eq ((hraised.find?_eq ns m).trans h)
  have hunused (j : Kept) : ctx₁.find? ns k.name ≠ some j := fun hj ↦
    Bool.eq_false_iff.1 hfree (contains_eq_true.2 ⟨j, hj⟩)
  -- The new entry is kept last, under a name that was free, and all that was there still is.
  refine ⟨?_, ⟨ctx₁.inNamespace ns, ?_, fun hmem ↦ ?_, fun j hj ↦ ?_, fun hnil ↦ ?_⟩, ?_, ?_⟩
  · exact Option.eq_none_iff_forall_ne_some.2 fun j hj ↦ hunused j (hfind hj)
  · rw [hafter, inNamespace_keep hc₁ hfree, ← hk]
  · obtain ⟨hkns, hfound⟩ := find?_of_mem_inNamespace hmem
    exact hunused k (hkns ▸ hfound)
  · obtain ⟨rfl, hfound⟩ := find?_of_mem_inNamespace hj
    exact mem_inNamespace_of_find? hc₁ (hfind hfound)
  · exact (hx.inNamespace_of_no_parameters hns hnil).trans (hraised.inNamespace_eq ns)
  · rw [hkx, hterm]
  · rw [hkx, hpairing]

/-! ### What the named spelling finds -/

/-- **The named spelling matches the entries that bear its name**, where these all have one term and
its values are paired with themselves in it. -/
theorem matched_spelled {c : Term} {vs : List Term}
    (hself : (Term.call name l internal).pairing c = some (vs.map fun v ↦ (v, v)))
    (hvs : ∀ v ∈ vs, v.isWellFormed = true ∧ v.IsUnambiguous)
    (hlead : Term.CapturesLeadAmong (vs.flatMap Term.exposed))
    (hbear : ∀ j ∈ ctx.inNamespace ns, j.toTerm.callName? = some name → j.toTerm = c) :
    matched ctx.storage (.call name l internal) (ctx.inNamespace ns) =
      .ok ((ctx.inNamespace ns).filter fun j ↦ j.toTerm.callName? = some name) := by
  refine matched_eq_ok fun j hj ↦ ?_
  by_cases hj' : j.toTerm.callName? = some name
  · obtain ⟨outcome, houtcome, hiff⟩ := Term.matching_of_pairing_self ctx.storage hself hvs
    rw [hbear j hj hj']
    exact ⟨outcome, houtcome, fun _ ↦ hbear j hj hj' ▸ hj', fun _ ↦ hiff.2 hlead⟩
  · exact ⟨none, Term.matching_of_callName? ctx.storage hj', nofun, fun h ↦ absurd h hj'⟩

/-- Of two entries with one term neither is singled out. -/
theorem singleMatch_of_alike {k k' : Kept} (hmatched : matched ctx.storage t (ctx.inNamespace ns) =
    .ok [k, k']) (h : k'.toTerm = k.toTerm) :
    ctx.singleMatch ns t = .error (.ambiguous ns [k.name, k'.name]) := by
  rw [singleMatch, hmatched]
  dsimp only [bind, Except.bind]
  rw [List.filter_cons, List.filter_cons, h]
  cases k.toTerm.matches ctx.storage t <;> rfl

namespace Made

variable {schema : List Parameter} {k k' : Kept} {after again : Context}

theorem callName?_eq (h : Made ctx ns name schema l internal k after) :
    k.toTerm.callName? = some name := by
  rw [h.toTerm_eq]
  rfl

/-- The named spelling finds the entry, if no other one bears the name. -/
theorem singleMatch_named (h : Made ctx ns name schema l internal k after)
    (hafter : after.Coherent) (hvs : ∀ v ∈ l.values, v.isWellFormed = true ∧ v.IsUnambiguous)
    (hlead : Term.CapturesLeadAmong (l.values.flatMap Term.exposed))
    (honly : ∀ j ∈ after.inNamespace ns, j.toTerm.callName? = some name → j = k) :
    after.singleMatch ns (.call name ⟨Parameter.spell schema l.values, l.form⟩ internal) =
      .ok (some k) := by
  obtain ⟨ks, hks, -⟩ := h.last
  have hmem : k ∈ after.inNamespace ns := by
    rw [hks]
    exact List.mem_concat_self
  have hmatched := matched_spelled h.pairing_eq hvs hlead fun j hj hname ↦
    congrArg Kept.toTerm (honly j hj hname)
  refine singleMatch_of_matched_single (hmatched.trans (congrArg Except.ok ?_))
  refine filter_eq_singleton (nodup_inNamespace hafter ns) hmem fun j hj ↦ ?_
  rw [decide_eq_true_eq]
  exact ⟨honly j hj, fun heq ↦ heq ▸ h.callName?_eq⟩

/-- Without parameters the definition finds the entry, as it is its own named spelling. -/
theorem singleMatch_of_no_parameters (h : Made ctx ns name schema l internal k after)
    (hafter : after.Coherent) (hother : ∀ j ∈ ctx.inNamespace ns, j.toTerm.callName? ≠ some name)
    (hnil : l.entries = []) : after.singleMatch ns (.call name l internal) = .ok (some k) := by
  obtain ⟨ks, hks, -, -, hsame⟩ := h.last
  have honly : ∀ j ∈ after.inNamespace ns, j.toTerm.callName? = some name → j = k := by
    intro j hj hname
    rw [hks, hsame hnil, List.mem_append, List.mem_singleton] at hj
    exact hj.resolve_left fun hj ↦ hother j hj hname
  obtain ⟨es, form⟩ := l
  obtain rfl : es = [] := hnil
  have hfound := h.singleMatch_named hafter (List.forall_mem_nil _) (List.forall_mem_nil _) honly
  rwa [Listing.values, List.map_nil, Parameter.spell_nil] at hfound

/-- **Once there are two entries, the named spelling is ambiguous.** -/
theorem singleMatch_named_twice (h : Made ctx ns name schema l internal k after)
    (h' : Made after ns name schema l internal k' again) (hagain : again.Coherent)
    (hvs : ∀ v ∈ l.values, v.isWellFormed = true ∧ v.IsUnambiguous)
    (hlead : Term.CapturesLeadAmong (l.values.flatMap Term.exposed))
    (honly : ∀ j ∈ again.inNamespace ns, j.toTerm.callName? = some name → j = k ∨ j = k') :
    again.singleMatch ns (.call name ⟨Parameter.spell schema l.values, l.form⟩ internal) =
      .error (.ambiguous ns [k.name, k'.name]) := by
  have hterm : k'.toTerm = k.toTerm := h'.toTerm_eq.trans h.toTerm_eq.symm
  obtain ⟨ks, hks, -⟩ := h.last
  obtain ⟨ks', hks', hnot, hsub, -⟩ := h'.last
  have hmatched := matched_spelled h.pairing_eq hvs hlead fun j hj hname ↦
    (honly j hj hname).elim (congrArg _) fun heq ↦ heq ▸ hterm
  have hnodup := nodup_inNamespace hagain ns
  rw [hks'] at hmatched hnodup honly
  -- Before the second entry comes the first one alone.
  have hfirst : (ks'.filter fun j ↦ j.toTerm.callName? = some name) = [k] := by
    refine filter_eq_singleton hnodup.of_append_left (hsub (hks ▸ List.mem_concat_self))
      fun j hj ↦ ?_
    rw [decide_eq_true_eq]
    refine ⟨fun hname ↦ ?_, fun heq ↦ heq ▸ h.callName?_eq⟩
    refine (honly j (List.mem_append_left _ hj) hname).resolve_right fun heq ↦ hnot (heq ▸ hj)
  have hlast : [k'].filter (fun j ↦ j.toTerm.callName? = some name) = [k'] :=
    List.filter_cons_of_pos (decide_eq_true h'.callName?_eq)
  rw [List.filter_append, hfirst, hlast] at hmatched
  exact singleMatch_of_alike (by rw [hks']; exact hmatched) hterm

end Made

/-- **Positional definitions are stored under names and are not found again.** Take a component that
is declared by a schema with distinct parameter names, a namespace in which no entry bears its name,
and a positional definition that is accepted.

* The entry is new, and its term is the named spelling of the definition, with the defaults of the
  parameters that are not given.
* A definition without parameters finds its entry when it is asked for again. One with parameters
  does not: if it is accepted again, then with another new entry that has the same term. It is
  accepted again if its values are texts and no parameter takes an entry.
* The named spelling finds the entry, if its values have a text and no name twice in a listing with
  different values, if captures stand before references of their names, and if no other entry bears
  the name of the component. If there are two entries, because the positional definition was
  accepted twice, the named spelling is ambiguous. -/
theorem getOrConstruct_positional {schema : List Parameter} {k : Kept} (hctx : ctx.Reachable)
    (hns : ns ≠ .ruleSet)
    (hprototypes : ctx.factories.prototypes ns name = [.ofSchema ns name schema])
    (hschema : (schema.map (·.name)).Nodup) (hpositional : ∀ e ∈ l.entries, e.name? = none)
    (hother : ∀ j ∈ ctx.inNamespace ns, j.toTerm.callName? ≠ some name)
    (hk : (ctx.getOrConstruct ns (.call name l internal)).result = .ok k) :
    let t : Term := .call name l internal
    let named : Term := .call name ⟨Parameter.spell schema l.values, l.form⟩ internal
    let first := ctx.getOrConstruct ns t
    let second := first.context.getOrConstruct ns t
    ctx.find? ns k.name = none ∧
      k.toTerm = .call name ⟨Parameter.spell schema l.values ++
        Parameter.defaults (schema.drop l.values.length), .parameters⟩ internal ∧
      (l.entries = [] → second.result = .ok k ∧ second.context = first.context) ∧
      (l.entries ≠ [] →
        (∀ k', second.result = .ok k' →
          first.context.find? ns k'.name = none ∧ k'.toTerm = k.toTerm) ∧
        ((∀ e ∈ l.entries, ∃ s, e.value = .text s) → (∀ q ∈ schema, ∀ ns, q.kind ≠ .entry ns) →
          ∃ k', second.result = .ok k')) ∧
      ((∀ v ∈ l.values, v.isWellFormed = true ∧ v.IsUnambiguous) → t.CapturesLead →
        ((∀ j ∈ first.context.inNamespace ns, j.toTerm.callName? = some name → j = k) →
          (first.context.getOrConstruct ns named).result = .ok k ∧
            (first.context.getOrConstruct ns named).context = first.context) ∧
        (l.entries ≠ [] → ∀ k', second.result = .ok k' →
          (∀ j ∈ second.context.inNamespace ns, j.toTerm.callName? = some name →
            j = k ∨ j = k') →
          (second.context.getOrConstruct ns named).result =
            .error (.ambiguous ns [k.name, k'.name]))) := by
  intro t named first second
  have hc : ctx.Coherent := hctx.coherent
  have hbuilds : Builds ctx (.entry t ns k) first.context :=
    perform_ok (Build.meets_findOrBuild t ns) hc hk
  obtain ⟨js, hgrows⟩ := hbuilds.grows
  have hfirst : first.context.Coherent := hgrows.coherent hc
  have hmade : ctx.Made ns name schema l internal k first.context :=
    made_positional hbuilds hc hns hprototypes hschema hpositional fun _ ↦ hother
  have hprototypes' : first.context.factories.prototypes ns name = [.ofSchema ns name schema] := by
    rw [hgrows.factories_eq, hprototypes]
  have hsecond (hne : l.entries ≠ []) (k' : Kept) (hk' : second.result = .ok k') :
      second.context.Coherent ∧ first.context.Made ns name schema l internal k' second.context := by
    have hbuilds' : Builds first.context (.entry t ns k') second.context :=
      perform_ok (Build.meets_findOrBuild t ns) hfirst hk'
    obtain ⟨js', hgrows'⟩ := hbuilds'.grows
    exact ⟨hgrows'.coherent hfirst, made_positional hbuilds' hfirst hns hprototypes' hschema
      hpositional fun hnil ↦ absurd hnil hne⟩
  refine ⟨hmade.free, hmade.toTerm_eq, fun hnil ↦ ?_, fun hne ↦ ⟨fun k' hk' ↦ ?_,
    fun htexts hkinds ↦ ?_⟩, fun hvs hlead ↦ ?_⟩
  · exact getOrConstruct_of_singleMatch rfl
      (hmade.singleMatch_of_no_parameters hfirst hother hnil)
  · obtain ⟨-, hmade'⟩ := hsecond hne k' hk'
    exact ⟨hmade'.free, hmade'.toTerm_eq.trans hmade.toTerm_eq.symm⟩
  -- What was set the first time can be set again.
  · obtain ⟨n, x, ctx₁, hraised, hx, -⟩ :=
      exists_made_positional hbuilds hns hpositional fun _ ↦ hother
    have hkinds' (m : String) (ns' : Namespace) :
        (Prototype.ofSchema ns name schema).instantiate.kind? m ≠ some (.entry ns') := by
      intro hkind
      obtain ⟨q, hq, hkind⟩ := Prototype.exists_kind hkind
      exact hkinds q hq ns' hkind
    exact exists_getOrConstruct_positional hx hns (hraised.factories_eq ▸ hprototypes) hne
      hpositional htexts hkinds' hfirst (hgrows.factories_eq.trans hraised.factories_eq.symm)
  · have hlead := (Term.capturesLead_iff rfl).1 hlead
    refine ⟨fun honly ↦ ?_, fun hne k' hk' honly ↦ ?_⟩
    · exact getOrConstruct_of_singleMatch rfl (hmade.singleMatch_named hfirst hvs hlead honly)
    · obtain ⟨hcoherent, hmade'⟩ := hsecond hne k' hk'
      exact getOrConstruct_of_singleMatch_error rfl
        (hmade.singleMatch_named_twice hmade' hcoherent hvs hlead honly)

/-- A positional definition with a function in it and a default behind it. -/
theorem getOrConstruct_positional_nested :
    let schema : List Parameter := [⟨"p", .text, none⟩, ⟨"q", .entry .strFn, none⟩,
      ⟨"r", .text, some (.text "7")⟩]
    let entry (label : Label) (t : Term) : Entry Term := ⟨label, [], t⟩
    let g : Term := .call "G" ⟨[entry (.named "x") (.text "2")], .parameters⟩ none
    let l : Listing Term := ⟨[entry .positional (.text "1"), entry .positional g], .parameters⟩
    let ctx := empty 0 ⟨[.ofSchema .feature "F" schema], [.strFn]⟩
    let named : Listing Term := ⟨Parameter.spell schema l.values, l.form⟩
    let first := ctx.getOrConstruct .feature (.call "F" l none)
    let second := first.context.getOrConstruct .feature (.call "F" l none)
    named.entries = [entry (.named "p") (.text "1"), entry (.named "q") g] ∧
      ∃ k k', first.result = .ok k ∧
        k.toTerm = .call "F" ⟨named.entries ++ [entry (.named "r") (.text "7")], .parameters⟩ none ∧
        (first.context.getOrConstruct .feature (.call "F" named none)).result = .ok k ∧
        second.result = .ok k' ∧ first.context.find? .feature k'.name = none ∧
        k'.toTerm = k.toTerm ∧
        (second.context.getOrConstruct .feature (.call "F" named none)).result =
          .error (.ambiguous .feature [k.name, k'.name]) := by
  intro schema entry g l ctx
  dsimp only
  have hmade :
      let first := ctx.getOrConstruct .feature (.call "F" l none)
      let second := first.context.getOrConstruct .feature (.call "F" l none)
      first.result.isOk = true ∧ second.result.isOk = true ∧
        (first.context.inNamespace .feature).map .ok = [first.result] ∧
        (second.context.inNamespace .feature).map .ok = [first.result, second.result] := by
    decide +kernel
  have hctx : ctx.Reachable := .empty 0 _
  have hprototypes : ctx.factories.prototypes .feature "F" = [.ofSchema .feature "F" schema] := rfl
  have hempty : ∀ j ∈ ctx.inNamespace .feature, j.toTerm.callName? ≠ some "F" := by decide
  have hvalues : ∀ v ∈ l.values, v.isWellFormed = true ∧ v.IsUnambiguous := by decide
  have hlead : (Term.call "F" l none).CapturesLead := by decide
  have hne : l.entries ≠ [] := List.cons_ne_nil _ _
  clear_value ctx
  obtain ⟨hfirst, hsecond, hone, htwo⟩ := hmade
  obtain ⟨k, hk⟩ := exists_eq_ok hfirst
  obtain ⟨k', hk'⟩ := exists_eq_ok hsecond
  obtain ⟨-, hterm, -, hother, hnamed⟩ := getOrConstruct_positional hctx (by decide) hprototypes
    (by decide) (by decide) hempty hk
  obtain ⟨hfree, halike⟩ := (hother hne).1 k' hk'
  obtain ⟨hfound, hambiguous⟩ := hnamed hvalues hlead
  refine ⟨rfl, k, k', hk, hterm, (hfound fun j hj _ ↦ ?_).1, hk', hfree, halike,
    hambiguous hne k' hk' fun j hj _ ↦ ?_⟩
  · have hmem : (.ok j : Except Error Kept) ∈ List.map .ok _ := List.mem_map_of_mem hj
    rw [hone, hk, List.mem_singleton] at hmem
    exact Except.ok.inj hmem
  · have hmem : (.ok j : Except Error Kept) ∈ List.map .ok _ := List.mem_map_of_mem hj
    rw [htwo, hk, hk', List.mem_cons, List.mem_singleton] at hmem
    exact hmem.imp Except.ok.inj Except.ok.inj

/-- **The two spellings do not denote one entry.** Asking twice for a positional definition gives
two entries, and the named spelling finds neither of them. -/
theorem not_getOrConstruct_positional :
    let call (label : Label) : Term := .call "F" ⟨[⟨label, [], .text "1"⟩], .parameters⟩ none
    let ctx := empty 0 ⟨[.ofSchema .feature "F" [⟨"p", .text, none⟩]], []⟩
    let first := ctx.getOrConstruct .feature (call .positional)
    let second := first.context.getOrConstruct .feature (call .positional)
    let third := second.context.getOrConstruct .feature (call (.named "p"))
    first.result.map (·.name) = .ok "0" ∧ second.result.map (·.name) = .ok "1" ∧
      third.result = .error (.ambiguous .feature ["0", "1"]) := by
  decide +kernel

end Context

end TermRegistry
