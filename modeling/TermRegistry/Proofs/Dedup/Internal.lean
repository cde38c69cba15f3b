import TermRegistry.Proofs.Dedup
import TermRegistry.Proofs.Matching.Termination

/-!
# Internal listings play no part in finding an entry

Matching does not look into internal listings. Two definitions that differ in nothing but the
internal listing at their top therefore match the same entries, and are matched by the same ones, so
that a definition finds the entry that was made for the other one. The bound on the depth of a match
counts the terms in internal listings as well, so the two are compared at different depths; over an
acyclic storage this makes no difference.

A rule set has all its rules in its internal listing. Any definition of one matches every rule set,
and so a context never gets a second rule set by asking for it: `getOrConstruct_internal`.
-/

namespace TermRegistry

variable {name : String} {l : Listing Term} {i j : Option (List (Entry Term))}

/-! ### Matching -/

namespace Matching

variable {resolve : String → Option Term}

/-- The internal listing of a pattern plays no part. -/
theorem matchWithin_internal (depth : Nat) (c : Term) (b : Binding) :
    matchWithin resolve depth (.call name l j) c b =
      matchWithin resolve depth (.call name l i) c b := by
  induction depth generalizing c with
  | zero => rfl
  | succ depth ih =>
    cases c with
    | reference x =>
      rw [matchWithin_followed rfl, matchWithin_followed rfl]
      exact congrArg _ (funext ih)
    | _ => rfl

/-- The internal listing of a candidate plays no part, but for what it is bound to. -/
theorem matchWithin_internal_candidate (depth : Nat) (p : Term) :
    (matchWithin resolve depth p (.call name l j) {}).map (fun _ ↦ ()) =
      (matchWithin resolve depth p (.call name l i) {}).map fun _ ↦ () := by
  induction depth generalizing p with
  | zero => rfl
  | succ depth ih =>
    cases p with
    | reference x =>
      have hne : ∀ k, Term.call name l k ≠ .reference x := fun _ ↦ nofun
      rw [matchWithin_reference (hne j), matchWithin_reference (hne i)]
      cases resolve x with
      | none => rfl
      | some u =>
        let run (k : Option (List (Entry Term))) := matchWithin resolve depth u (.call name l k) {}
        let note (k : Option (List (Entry Term))) (b : Binding) := b.note x (.call name l k)
        calc
          _ = (run j).map (fun _ ↦ ()) := Functor.map_map (note j) (fun _ ↦ ()) (run j)
          _ = (run i).map (fun _ ↦ ()) := ih u
          _ = _ := (Functor.map_map (note i) (fun _ ↦ ()) (run i)).symm
    | _ => rfl

end Matching

section

open Matching

variable {s : Storage}

/-- Definitions that differ in their internal listings match alike. -/
theorem Term.matching_internal (hs : s.Acyclic) (c : Term) :
    Term.matching s (.call name l j) c = Term.matching s (.call name l i) c := by
  have hdepth := Nat.le_max_left (depthBound s (.call name l j) c)
    (depthBound s (.call name l i) c)
  have hdepth' := Nat.le_max_right (depthBound s (.call name l j) c)
    (depthBound s (.call name l i) c)
  rw [Term.matching, Term.matching, ← matchWithin_eq hs hdepth, ← matchWithin_eq hs hdepth',
    matchWithin_internal]

/-- Definitions that differ in their internal listings are matched alike. -/
theorem Term.matches_internal (hs : s.Acyclic) (p : Term) :
    p.matches s (.call name l j) = p.matches s (.call name l i) := by
  have hdepth := Nat.le_max_left (depthBound s p (.call name l j))
    (depthBound s p (.call name l i))
  have hdepth' := Nat.le_max_right (depthBound s p (.call name l j))
    (depthBound s p (.call name l i))
  have hoks : ∀ c, p.matches s c =
      ((matchWithin s.resolve (depthBound s p c) p c {}).map fun _ ↦ ()).isOk := by
    intro c
    rw [Term.matches, Term.matching]
    cases matchWithin s.resolve (depthBound s p c) p c {} with
    | ok b => rfl
    | error e => cases e <;> rfl
  rw [hoks, hoks, ← matchWithin_eq hs hdepth, ← matchWithin_eq hs hdepth',
    matchWithin_internal_candidate]

end

/-- **A definition of a rule set matches every rule set.** -/
theorem RuleSet.matching_toTerm {t : Term} {s : RuleSet} (h : ofTerm t = .ok s) (st : Storage)
    (s' : RuleSet) : ∃ b, Term.matching st t s'.toTerm = .ok (some b) := by
  have hpairing := pairing_toTerm h s'
  obtain ⟨hconcrete, hcandidate⟩ := Term.isConcrete_of_pairing hpairing
  have hrun : Matching.matchWithin st.resolve (Matching.depthBound st t s'.toTerm) t s'.toTerm {} =
      .ok {} := by
    rw [Matching.depthBound,
      Matching.matchWithin_shape hconcrete (Term.reference?_of_isConcrete hcandidate)]
    exact Matching.matchShape_eq_ok.2 ⟨[], hpairing, rfl⟩
  exact ⟨_, by rw [Term.matching, hrun]⟩

namespace Context

variable {ctx : Context} {ns : Namespace} {k : Kept}

/-- **The internal listing of a definition plays no part** in which entry it matches. -/
theorem singleMatch_internal (hs : ctx.storage.Acyclic) (ns : Namespace) :
    ctx.singleMatch ns (.call name l j) = ctx.singleMatch ns (.call name l i) := by
  have hmatched : ∀ ks, matched ctx.storage (.call name l j) ks =
      matched ctx.storage (.call name l i) ks := by
    intro ks
    induction ks with
    | nil => rfl
    | cons k ks ih => rw [matched, matched, Term.matching_internal hs, ih]
  cases hfound : matched ctx.storage (.call name l i) (ctx.inNamespace ns) with
  | error e =>
    rw [singleMatch, singleMatch, hmatched, hfound]
    rfl
  | ok found =>
    exact singleMatch_congr ((hmatched _).trans hfound) hfound fun k _ ↦
      Term.matches_internal hs k.toTerm

/-- **What matches nothing is made** under the next number, if its content is built without a change
to the context. -/
theorem getOrConstruct_of_unmatched {t : Term} {x : Content} (ht : t.reference? = none)
    (hunmatched : ctx.singleMatch ns t = .ok none)
    (hfree : (ctx.withCounter (ctx.nextNumber ns + 1)).contains ns (ctx.nextNumber ns).repr = false)
    (hcontent : ∀ p : Progress, p.context.factories = ctx.factories →
      Build.outcome (Build.content (Build.populateFrom t) t ns) p = (.ok x, p)) :
    let made := (ctx.withCounter (ctx.nextNumber ns + 1)).keep ns (ctx.nextNumber ns).repr x
    (ctx.getOrConstruct ns t).result = .ok made.1 ∧ (ctx.getOrConstruct ns t).context = made.2 := by
  intro made
  -- The counter plays no part in matching.
  have hagain : (ctx.withCounter (ctx.nextNumber ns + 1)).singleMatch ns t = .ok none := hunmatched
  have houtcome : Build.outcome (Build.findOrBuild t ns) ⟨ctx, []⟩ =
      (.ok made.1, ⟨made.2, [(ns, (ctx.nextNumber ns).repr)]⟩) := by
    rw [Build.findOrBuild_eq ht, Build.findOrKeep, Build.outcome_matchOr, hunmatched]
    refine (Build.outcome_bind_ok (Build.outcome_mint _ ns) _).trans ?_
    refine (Build.outcome_bind_ok (hcontent _ rfl) _).trans ?_
    rw [Build.outcome_matchOr, hagain]
    refine (Build.outcome_keep _ ns (ctx.nextNumber ns).repr x).trans ?_
    exact if_neg (Bool.eq_false_iff.1 hfree)
  exact perform_of_outcome houtcome

/-! ### Rule sets -/

theorem matched_ruleSets (hc : ctx.Coherent) {t : Term} {s : RuleSet}
    (ht : RuleSet.ofTerm t = .ok s) :
    matched ctx.storage t (ctx.inNamespace .ruleSet) = .ok (ctx.inNamespace .ruleSet) := by
  have hrules : ∀ k ∈ ctx.inNamespace .ruleSet, ∃ s, k.content = .rules s := by
    intro k hk
    obtain ⟨hns, hfound⟩ := find?_of_mem_inNamespace hk
    exact Content.eq_rules_of_suits (hns ▸ hc.suits_of_find? hfound)
  generalize ctx.inNamespace .ruleSet = ks at hrules ⊢
  induction ks with
  | nil => rfl
  | cons k ks ih =>
    obtain ⟨s', hs'⟩ := hrules k List.mem_cons_self
    obtain ⟨b, hb⟩ := RuleSet.matching_toTerm ht ctx.storage s'
    have hterm : k.toTerm = s'.toTerm := congrArg Content.toTerm hs'
    rw [matched, hterm, hb, ih fun k hk ↦ hrules k (List.mem_cons_of_mem _ hk)]
    rfl

/-- **The first rule set that is asked for is made.** -/
theorem getOrConstruct_ruleSet (hc : ctx.Coherent) {t : Term} {s : RuleSet}
    (ht : RuleSet.ofTerm t = .ok s) (hnone : ctx.inNamespace .ruleSet = []) :
    let n := ctx.nextNumber .ruleSet
    let made := (ctx.withCounter (n + 1)).keep .ruleSet n.repr (.rules s)
    made.2.inNamespace .ruleSet = [made.1] ∧
      (ctx.getOrConstruct .ruleSet t).result = .ok made.1 ∧
      (ctx.getOrConstruct .ruleSet t).context = made.2 := by
  intro n made
  have hc' := (Raised.mint ctx .ruleSet).coherent hc
  have hnone' : (ctx.withCounter (n + 1)).inNamespace .ruleSet = [] := hnone
  have hfree : (ctx.withCounter (n + 1)).contains .ruleSet n.repr = false := by
    rw [Bool.eq_false_iff]
    intro htaken
    obtain ⟨k, hk⟩ := contains_eq_true.1 htaken
    have hmem : k ∈ (ctx.withCounter (n + 1)).inNamespace .ruleSet :=
      List.mem_filterMap.2 ⟨n.repr, hc'.mem_names_iff.2 htaken, hk⟩
    rw [hnone'] at hmem
    cases hmem
  -- There is no rule set yet for the definition to match.
  have hunmatched : ctx.singleMatch .ruleSet t = .ok none := by
    rw [singleMatch, matched_ruleSets hc ht, hnone]
    rfl
  have href : t.reference? = none :=
    Term.reference?_of_isConcrete (Term.isConcrete_of_pairing (RuleSet.pairing_toTerm ht s)).1
  refine ⟨?_, getOrConstruct_of_unmatched href hunmatched hfree fun p _ ↦ ?_⟩
  · rw [inNamespace_keep hc' hfree, hnone', List.nil_append]
  · refine Build.outcome_bind_ok (a := s) (q := p) ?_ _
    rw [Build.outcome_liftM, ht]

/-! ### Definitions that differ in their internal listings -/

/-- **A definition finds the entry that was made for another one** with the same name and the same
parameters, whatever their internal listings, and nothing is changed.

For rule sets there is no condition but that both are definitions of rule sets and the first one
matches none that is there: it is then made, with its own rules, and the second one gets it. For
other definitions the conditions are those under which the first one would find its entry when asked
for again: the context and the definition are grounded, components are made under their own generic
names, parameters at the top are named, and no new name is mentioned in the definition or in a term
that is stored by then. -/
theorem getOrConstruct_internal {ctx : Context} (hctx : ctx.Reachable) (name : String)
    (l : Listing Term) (i j : Option (List (Entry Term))) :
    (∀ s s', RuleSet.ofTerm (.call name l i) = .ok s → RuleSet.ofTerm (.call name l j) = .ok s' →
      ctx.singleMatch .ruleSet (.call name l i) = .ok none →
      let after := (ctx.getOrConstruct .ruleSet (.call name l i)).context
      ∃ k, (ctx.getOrConstruct .ruleSet (.call name l i)).result = .ok k ∧ k.content = .rules s ∧
        (after.getOrConstruct .ruleSet (.call name l j)).result = .ok k ∧
        (after.getOrConstruct .ruleSet (.call name l j)).context = after) ∧
    ∀ ns k, (ctx.getOrConstruct ns (.call name l i)).result = .ok k →
      (∀ p ∈ ctx.factories.registered, p.blueprint.genericName = p.name) →
      ctx.AllGrounded → ctx.Grounded (.call name l i) → l.isPositional = false →
      let after := (ctx.getOrConstruct ns (.call name l i)).context
      (∀ x ∈ newNames ctx after, x ∉ (Term.call name l i).references ∧
        ∀ k' ∈ after.entries, x ∉ k'.toTerm.references) →
      (after.getOrConstruct ns (.call name l j)).result = .ok k ∧
        (after.getOrConstruct ns (.call name l j)).context = after := by
  have hc : ctx.Coherent := hctx.coherent
  constructor
  · intro s s' hs hs' hunmatched after
    have hnone := matched_eq_nil_of_singleMatch (matched_ruleSets hc hs) hunmatched
    obtain ⟨hmade, hresult, hcontext⟩ := getOrConstruct_ruleSet hc hs hnone
    have hafter : after.Coherent :=
      (hctx.after (.getOrConstruct .ruleSet (.call name l i))).coherent
    rw [← hcontext] at hmade
    have hfound : matched after.storage (.call name l j) (after.inNamespace .ruleSet) = .ok [_] :=
      (matched_ruleSets hafter hs').trans (congrArg Except.ok hmade)
    exact ⟨_, hresult, rfl,
      getOrConstruct_of_singleMatch rfl (singleMatch_of_matched_single hfound)⟩
  · intro ns k hk hgeneric hall ht hpositional after hnew
    have hnamed : ∀ name' l' i', Term.call name l i = .call name' l' i' →
        l'.isPositional = false := by
      rintro _ _ _ ⟨⟩
      exact hpositional
    obtain ⟨hfound, hsetting, -⟩ :=
      singleMatch_of_getOrConstruct hc hgeneric hall ht rfl hnamed hk hnew
    exact getOrConstruct_of_singleMatch rfl
      ((singleMatch_internal hsetting.acyclic ns).trans hfound)

/-- A second rule set is the first one, and a feature with another vocabulary is the feature there
is. -/
theorem getOrConstruct_internal_listings :
    let rules (n target : String) : Option (List (Entry Term)) :=
      some [⟨.typed RuleSet.ruleType n, [], .rule (.text "x") (.text target)⟩]
    let vocabulary (s : String) : Option (List (Entry Term)) :=
      some [⟨.named "vocabulary", [], .array [.text s]⟩]
    let ctx := empty 0 ⟨[], [.feature]⟩
    let ruleSet (i : Option (List (Entry Term))) : Term := .call RuleSet.genericName {} i
    let feature (i : Option (List (Entry Term))) : Term :=
      .call "F" ⟨[⟨.named "p", [], .text "1"⟩], .parameters⟩ i
    let after := (ctx.getOrConstruct .ruleSet (ruleSet (rules "a" "y"))).context
    let after' := (ctx.getOrConstruct .feature (feature (vocabulary "a"))).context
    (∃ k, (ctx.getOrConstruct .ruleSet (ruleSet (rules "a" "y"))).result = .ok k ∧
      k.toTerm = ruleSet (rules "a" "y") ∧
      (after.getOrConstruct .ruleSet (ruleSet (rules "b" "z"))).result = .ok k) ∧
    ∃ k, (ctx.getOrConstruct .feature (feature (vocabulary "a"))).result = .ok k ∧
      k.toTerm = feature (vocabulary "a") ∧
      (after'.getOrConstruct .feature (feature (vocabulary "b"))).result = .ok k := by
  intro rules vocabulary ctx ruleSet feature after after'
  have hctx : ctx.Reachable := .empty 0 ⟨[], [.feature]⟩
  constructor
  · let s : RuleSet := ⟨[("a", ⟨.text "x", .text "y"⟩)], by decide⟩
    let s' : RuleSet := ⟨[("b", ⟨.text "x", .text "z"⟩)], by decide⟩
    have hs : RuleSet.ofTerm (ruleSet (rules "a" "y")) = .ok s := by decide +kernel
    have hs' : RuleSet.ofTerm (ruleSet (rules "b" "z")) = .ok s' := by decide +kernel
    have hnone : ctx.singleMatch .ruleSet (ruleSet (rules "a" "y")) = .ok none := by decide +kernel
    obtain ⟨k, hk, hcontent, hagain, -⟩ := (getOrConstruct_internal hctx RuleSet.genericName {}
      (rules "a" "y") (rules "b" "z")).1 s s' hs hs' hnone
    refine ⟨k, hk, congrArg Content.toTerm hcontent, ?_⟩
    simpa only [after, ruleSet] using hagain
  · let k : Kept := ⟨.feature, "0", ⟨0, 0⟩, .component
      { genericName := "F", values := [("p", .literal (.text "1"))],
        internal? := vocabulary "a" }⟩
    have hk : (ctx.getOrConstruct .feature (feature (vocabulary "a"))).result = .ok k := by
      decide +kernel
    have hall : ctx.AllGrounded := ⟨by decide +kernel, .of_rank (fun _ ↦ 0) (by decide +kernel)⟩
    have ht : ctx.Grounded (feature (vocabulary "a")) := by decide +kernel
    have hstored : ∀ k ∈ after'.entries, k.toTerm.references = [] := by decide +kernel
    obtain ⟨hagain, -⟩ := (getOrConstruct_internal hctx "F" ⟨[⟨.named "p", [], .text "1"⟩],
      .parameters⟩ (vocabulary "a") (vocabulary "b")).2 .feature k hk nofun hall ht rfl
      fun x _ ↦ ⟨nofun, fun k' hk' hx ↦ by rw [hstored k' hk'] at hx; cases hx⟩
    refine ⟨k, hk, rfl, ?_⟩
    simpa only [after', feature] using hagain

/-- Two rule sets with different rules, of which neither is there, end up as one. -/
theorem getOrConstruct_merges_ruleSets :
    let rules (n target : String) : Option (List (Entry Term)) :=
      some [⟨.typed RuleSet.ruleType n, [], .rule (.text "x") (.text target)⟩]
    let a : Term := .call RuleSet.genericName {} (rules "a" "y")
    let b : Term := .call RuleSet.genericName {} (rules "b" "z")
    let ctx := empty 0 {}
    let after := (ctx.getOrConstruct .ruleSet a).context
    let k : Kept := ⟨.ruleSet, "0", ⟨0, 0⟩,
      .rules ⟨[("a", ⟨.text "x", .text "y"⟩)], by decide⟩⟩
    (RuleSet.ofTerm a).isOk = true ∧ (RuleSet.ofTerm b).isOk = true ∧
      RuleSet.ofTerm a ≠ RuleSet.ofTerm b ∧ ctx.singleMatch .ruleSet a = .ok none ∧
      ctx.singleMatch .ruleSet b = .ok none ∧ (ctx.getOrConstruct .ruleSet a).result = .ok k ∧
      (after.getOrConstruct .ruleSet b).result = .ok k := by
  decide +kernel

end Context

end TermRegistry
