import TermRegistry.Proofs.Application.Substitution
import TermRegistry.Proofs.Matching.Endless
import TermRegistry.Proofs.Reporting
import TermRegistry.Proofs.RuleSet.Writing

/-!
# Rules that are applied together

Applying all rules of a set and applying one of them by its name go different ways: the one goes
through the rules in order, the other looks a name up. As no name occurs twice, they agree. Either
way a rule is applied by `Rule.apply`, which knows nothing of the other rules; so what a set derives
and what it reports are put together from what each of its rules contributes and fails with
(`RuleSet.derive_eq`), and neither depends on what other rules there are, or in which order.

**Endless rules.** Where references lead in circles, the match of a rule may have no end. This is no
failure of the rule, which could be reported before the others have their turn: applying the rule
has no outcome, and then applying the set has none (`RuleSet.endless_derive`). Nothing else keeps a
set from coming to an end (`RuleSet.Ends`), and over an acyclic storage nothing does
(`RuleSet.ends_of_acyclic`).
-/

namespace TermRegistry

/-! ### Rules that come to an end -/

/-- **A rule is endless** on a term if every depth is too little for its match. -/
def Rule.Endless (storage : Storage) (source : Term) (r : Rule) : Prop :=
  Matching.Visit.Endless storage.resolve ⟨r.source, source, {}⟩

/-- **A set comes to an end** on a term if none of its rules is endless there. -/
def RuleSet.Ends (storage : Storage) (source : Term) (s : RuleSet) : Prop :=
  ∀ r ∈ s.rules, ¬ r.2.Endless storage source

/-- Whatever is given for references, a blank that cannot be filled is a failure with an end. -/
theorem Term.fault?_ne_circular (given : String → Option Term) (t : Term) :
    t.fault? given ≠ some .circular := by
  intro h
  obtain ⟨u, -, hu⟩ := List.exists_of_findSome?_eq_some h
  cases u with
  | reference name =>
    rw [blankFault?] at hu
    split at hu <;> cases hu
  | _ => cases hu

/-- **Applying a rule has no outcome** just when the rule is endless: the target plays no part. -/
theorem Rule.apply_eq_circular_iff {around : Surroundings} {source : Term} {rule : Rule}
    (extra : Binding) :
    rule.apply around extra source = .error .circular ↔ rule.Endless around.storage source := by
  refine Iff.trans ?_ (Term.matching_circular_iff around.storage rule.source source)
  rw [apply]
  show (rule.source.matching around.storage source).bind _ = _ ↔ _
  cases rule.source.matching around.storage source with
  | error e =>
    exact ⟨fun h ↦ congrArg _ (Except.error.inj h), fun h ↦ congrArg _ (Except.error.inj h)⟩
  | ok b? =>
    refine iff_of_false (fun h ↦ ?_) fun h ↦ by cases h
    cases b? with
    | none => cases h
    | some b =>
      change (Term.substitute _ rule.target).bind _ = _ at h
      rw [Term.substitute_eq] at h
      cases hfault : rule.target.fault? _ with
      | none =>
        rw [hfault] at h
        cases h
      | some e =>
        rw [hfault] at h
        exact Term.fault?_ne_circular _ _ (Except.error.inj h ▸ hfault)

namespace RuleSet

variable {around : Surroundings} {extra : Binding} {source : Term} {s s' : RuleSet}
  {name : String} {rule : Rule}

/-! ### Rules by their names -/

theorem get?_eq_some : s.get? name = some rule ↔ (name, rule) ∈ s.rules := by
  rw [get?]
  refine ⟨fun h ↦ ?_, fun h ↦ ?_⟩
  · obtain ⟨l₁, l₂, hl, -⟩ := List.lookup_eq_some_iff.1 h
    rw [hl]
    exact List.mem_append_right l₁ List.mem_cons_self
  · -- No name occurs twice, so nothing in front of the rule has its name.
    obtain ⟨l₁, l₂, hl⟩ := List.append_of_mem h
    have hnodup := s.nodup
    rw [hl, List.map_append, List.nodup_append] at hnodup
    refine List.lookup_eq_some_iff.2 ⟨l₁, l₂, hl, fun r hr ↦ bne_iff_ne.2 fun heq ↦ ?_⟩
    exact hnodup.2.2 _ (List.mem_map_of_mem hr) _ List.mem_cons_self heq.symm

/-! ### One rule among others -/

/-- What a rule contributes: the term that it yields, under its name. -/
def contribution? (around : Surroundings) (extra : Binding) (source : Term) (r : String × Rule) :
    Option (String × Term) :=
  (r.2.apply around extra source).toOption.join.map (r.1, ·)

/-- What a rule fails with, if it matches without yielding a term. -/
def failure? (around : Surroundings) (extra : Binding) (source : Term) (r : String × Rule) :
    Option Error :=
  (Reported.of (r.2.apply around extra source)).failure?

/-- **Going through rules has no end** just when one of them is endless. -/
theorem endless_derive {rs : List (String × Rule)} :
    (derive around extra source rs).endless = true ↔
      ∃ r ∈ rs, r.2.Endless around.storage source := by
  induction rs with
  | nil => exact iff_of_false nofun fun ⟨_, h, _⟩ ↦ nomatch h
  | cons r rs ih =>
    obtain ⟨n, rule⟩ := r
    rw [List.exists_mem_cons_iff, ← Rule.apply_eq_circular_iff extra, ← ih, derive]
    split
    · next h => simp [h]
    · next h => simp [h]
    · next h => simp [h]
    · next e hne h => simpa [h] using fun heq ↦ absurd heq hne

/-- Two names that stand for each other: the rule behind the endless one has no turn, and has one
alone. -/
example :
    let around : Surroundings :=
      ⟨.ofList [("x", .reference "y"), ("y", .reference "x")], fun _ ↦ none⟩
    let a : String × Rule := ("a", ⟨.reference "x", .text "1"⟩)
    let b : String × Rule := ("b", ⟨.capture "n", .text "2"⟩)
    (derive around {} (.text "z") [a, b]).endless = true ∧
      (derive around {} (.text "z") [a, b]).derived = [] ∧
      (derive around {} (.text "z") [b]).derived = [("b", .text "2")] := by
  decide +kernel

/-- **What rules derive and fail with is put together from each of them**, if none is endless. -/
theorem derive_eq {rs : List (String × Rule)} (h : ∀ r ∈ rs, ¬ r.2.Endless around.storage source) :
    derive around extra source rs = ⟨rs.filterMap (contribution? around extra source),
      rs.filterMap (failure? around extra source), false⟩ := by
  induction rs with
  | nil => rfl
  | cons r rs ih =>
    obtain ⟨n, rule⟩ := r
    have hends : rule.apply around extra source ≠ .error .circular :=
      fun hcircular ↦ h _ List.mem_cons_self ((Rule.apply_eq_circular_iff extra).1 hcircular)
    rw [List.filterMap_cons, List.filterMap_cons, contribution?, failure?, derive,
      ih fun r hr ↦ h r (List.mem_cons_of_mem _ hr)]
    split
    · next h => rw [h]; rfl
    · next h => rw [h]; rfl
    · next h => exact absurd h hends
    · next h => rw [h]; rfl

theorem contribution?_eq_some {r : String × Rule} {t : Term} :
    contribution? around extra source r = some (name, t) ↔
      r.1 = name ∧ r.2.apply around extra source = .ok (some t) := by
  rw [contribution?, Option.map_eq_some_iff]
  constructor
  · rintro ⟨u, hu, heq⟩
    obtain ⟨rfl, rfl⟩ := Prod.ext_iff.1 heq
    exact ⟨rfl, toOption_eq_some.1 (Option.join_eq_some_iff.1 hu)⟩
  · rintro ⟨rfl, ht⟩
    exact ⟨t, Option.join_eq_some_iff.2 (toOption_eq_some.2 ht), rfl⟩

/-! ### All rules -/

/-- What the rules of a set yield one by one, sorted by their names. -/
def derived (around : Surroundings) (extra : Binding) (source : Term) (s : RuleSet) :
    List (String × Term) :=
  (s.rules.filterMap (contribution? around extra source)).mergeSort fun a b ↦ decide (a.1 ≤ b.1)

theorem derived_perm : (derived around extra source s).Perm
    (s.rules.filterMap (contribution? around extra source)) :=
  List.mergeSort_perm _ _

/-- **A set that comes to an end** derives what its rules yield, and fails with what they fail
with. -/
theorem applyAll_eq (h : s.Ends around.storage source) : s.applyAll around extra source =
    ⟨derived around extra source s, s.rules.filterMap (failure? around extra source), false⟩ := by
  rw [applyAll, derive_eq h]
  rfl

/-- Contributions bear the names of their rules. -/
theorem names_contributions (around : Surroundings) (extra : Binding) (source : Term)
    (rs : List (String × Rule)) :
    ((rs.filterMap (contribution? around extra source)).map Prod.fst).Sublist
      (rs.map Prod.fst) := by
  induction rs with
  | nil => exact List.Sublist.refl _
  | cons r rs ih =>
    rw [List.filterMap_cons]
    split
    · exact ih.cons _
    · next c hc =>
      obtain ⟨n, t⟩ := c
      rw [List.map_cons, List.map_cons, (contribution?_eq_some.1 hc).1]
      exact ih.cons_cons n

/-- **What is derived is sorted by name**, without a name that occurs twice. -/
theorem derived_sorted (s : RuleSet) :
    (derived around extra source s).Pairwise fun a b ↦ a.1 < b.1 := by
  have hle : (derived around extra source s).Pairwise fun a b ↦ a.1 ≤ b.1 := by
    have hsorted : (derived around extra source s).Pairwise fun a b ↦ decide (a.1 ≤ b.1) = true :=
      List.pairwise_mergeSort
        (fun a b c hab hbc ↦
          decide_eq_true ((of_decide_eq_true hab).trans (of_decide_eq_true hbc)))
        (fun a b ↦ by simpa using le_total a.1 b.1) _
    exact hsorted.imp of_decide_eq_true
  have hne : (derived around extra source s).Pairwise fun a b ↦ a.1 ≠ b.1 := by
    have hnodup := (names_contributions around extra source s.rules).nodup s.nodup
    exact List.pairwise_map.1 ((derived_perm.map Prod.fst).nodup_iff.2 hnodup)
  exact (hle.and hne).imp fun h ↦ lt_of_le_of_ne h.1 h.2

/-- **What is derived is what the rules yield one by one.** -/
theorem mem_derived {t : Term} : (name, t) ∈ derived around extra source s ↔
    ∃ rule, s.get? name = some rule ∧ rule.apply around extra source = .ok (some t) := by
  rw [derived_perm.mem_iff, List.mem_filterMap]
  constructor
  · rintro ⟨⟨n, rule⟩, hr, hc⟩
    obtain ⟨rfl, ht⟩ := contribution?_eq_some.1 hc
    exact ⟨rule, get?_eq_some.2 hr, ht⟩
  · rintro ⟨rule, hr, ht⟩
    exact ⟨(name, rule), get?_eq_some.1 hr, contribution?_eq_some.2 ⟨rfl, ht⟩⟩

end RuleSet

/-! ### In a context -/

namespace Context

open RuleSet

variable {ctx : Context} {s : RuleSet} {source : Term} {extra : Binding} {name : String}

/-- **A set that comes to an end** is answered with what its rules yield, and their failures are
reported in order. -/
theorem applyRules_of_ends (h : s.Ends ctx.storage source) (extra : Binding) :
    ctx.applyRules s source extra = ⟨.ok (derived ctx.surroundings extra source s),
      s.rules.filterMap (RuleSet.failure? ctx.surroundings extra source)⟩ := by
  rw [applyRules, applyAll_eq h]
  rfl

/-- **A set with an endless rule** is not answered. -/
theorem applyRules_of_not_ends (h : ¬ s.Ends ctx.storage source) (extra : Binding) :
    (ctx.applyRules s source extra).result = .error .circular := by
  have hrule : ∃ r ∈ s.rules, r.2.Endless ctx.storage source := by simpa [Ends] using h
  have hendless : (derive ctx.surroundings extra source s.rules).endless = true :=
    endless_derive.2 hrule
  exact if_pos hendless

/-- An answer is what the rules yield, and there is one only if the set comes to an end. -/
theorem eq_derived_of_applyRules {d : List (String × Term)}
    (h : (ctx.applyRules s source extra).result = .ok d) :
    d = derived ctx.surroundings extra source s := by
  by_cases hends : s.Ends ctx.storage source
  · rw [applyRules_of_ends hends] at h
    exact (Except.ok.inj h).symm
  · rw [applyRules_of_not_ends hends] at h
    cases h

end Context

end TermRegistry
