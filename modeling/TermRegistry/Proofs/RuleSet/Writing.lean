import Mathlib.Data.List.Induction
import Mathlib.Data.List.Nodup
import TermRegistry.Binding
import TermRegistry.Proofs.RoundTrip
import TermRegistry.RuleSet

/-!
# Rule sets as they are built and written

A rule set is built by adding named rules. A name that is taken is refused and the set stays as it
is, so that a set has the first rule that was added under each name, in the order in which the names
first came up (`RuleSet.ofAdditions`).

What is read as a rule set is said by `RuleSet.ofTerm_eq_ok`: a call of the right name, without
parameters, whose internal listing has the statements of the rules one after the other. Modifiers in
front of a statement are the only thing there that is not read. A rule set is therefore read off its
own term; and since it consists of terms that were written inside another one, its term can be
written if it was read off a term that can.
-/

namespace TermRegistry

/-- An entry without its modifiers. -/
def Entry.unmodified {α : Type} (e : Entry α) : Entry α := { e with modifiers := [] }

namespace RuleSet

variable {s s' : RuleSet} {t : Term} {name : String} {rule : Rule} {es : List (Entry Term)}

/-! ### Adding rules -/

/-- A rule set is told by its rules. -/
theorem ext_rules (h : s.rules = s'.rules) : s = s' := by
  obtain ⟨rs, hrs⟩ := s
  obtain ⟨rs', hrs'⟩ := s'
  obtain rfl : rs = rs' := h
  rfl

theorem get?_eq_none : s.get? name = none ↔ name ∉ s.names := by
  refine ⟨notMem_names_of_get?, fun h ↦ ?_⟩
  rw [get?, List.lookup_eq_none_iff]
  exact fun r hr ↦ bne_iff_ne.2 fun heq ↦ h (List.mem_map.2 ⟨r, hr, heq.symm⟩)

/-- A rule under a new name is put behind the others. -/
theorem exists_add (rule : Rule) (h : s.get? name = none) :
    ∃ s', s.add name rule = .ok s' ∧ s'.rules = s.rules ++ [(name, rule)] := by
  rw [add]
  split
  · next hsome =>
    rw [h] at hsome
    cases hsome
  · exact ⟨_, rfl, rfl⟩

/-- **A rule is added just when its name is new.** -/
theorem add_eq_ok :
    s.add name rule = .ok s' ↔ s.get? name = none ∧ s'.rules = s.rules ++ [(name, rule)] := by
  constructor
  · intro h
    rw [add] at h
    split at h
    · cases h
    · next hnew =>
      cases h
      exact ⟨hnew, rfl⟩
  · rintro ⟨hnew, hrules⟩
    obtain ⟨s₁, hs₁, hrules₁⟩ := exists_add rule hnew
    rw [hs₁, ext_rules (hrules₁.trans hrules.symm)]

/-- A rule set after an attempt to add a rule, which a name that is taken leaves without effect. -/
def tryAdd (s : RuleSet) (r : String × Rule) : RuleSet := (s.add r.1 r.2).toOption.getD s

/-- **The rule set that is built by adding rules**, one after the other, to the empty one. -/
def ofAdditions (rs : List (String × Rule)) : RuleSet := rs.foldl tryAdd ⟨[], List.nodup_nil⟩

theorem rules_tryAdd (s : RuleSet) (r : String × Rule) :
    (s.tryAdd r).rules = if r.1 ∈ s.names then s.rules else s.rules ++ [r] := by
  rw [tryAdd]
  split
  · next hmem =>
    cases hadd : s.add r.1 r.2 with
    | error e => rfl
    | ok s' => exact absurd hmem (get?_eq_none.1 (add_eq_ok.1 hadd).1)
  · next hnew =>
    obtain ⟨s', hadd, hrules⟩ := exists_add r.2 (get?_eq_none.2 hnew)
    rw [hadd]
    exact hrules

theorem ofAdditions_append (rs : List (String × Rule)) (r : String × Rule) :
    ofAdditions (rs ++ [r]) = (ofAdditions rs).tryAdd r := by
  rw [ofAdditions, List.foldl_append]
  rfl

/-- The names of a rule set are those under which a rule was added, in the order in which they came
up. -/
theorem names_ofAdditions (rs : List (String × Rule)) :
    (ofAdditions rs).names = (rs.map Prod.fst).eraseDups := by
  induction rs using List.reverseRecOn with
  | nil => rfl
  | append_singleton rs r ih =>
    rw [ofAdditions_append, names, rules_tryAdd, List.map_append, List.map_singleton,
      eraseDups_concat, ← ih]
    by_cases hmem : r.1 ∈ (ofAdditions rs).names
    · have hold : r.1 ∈ rs.map Prod.fst := by rwa [ih, List.mem_eraseDups] at hmem
      rw [if_pos hmem, if_pos hold]
      rfl
    · have hnew : r.1 ∉ rs.map Prod.fst := by rwa [ih, List.mem_eraseDups] at hmem
      rw [if_neg hmem, if_neg hnew, List.map_append]
      rfl

/-- **The rule of a name is the first one that was added under it.** -/
theorem get?_ofAdditions (rs : List (String × Rule)) (name : String) :
    (ofAdditions rs).get? name = rs.lookup name := by
  induction rs using List.reverseRecOn with
  | nil => rfl
  | append_singleton rs r ih =>
    rw [ofAdditions_append, get?, rules_tryAdd, List.lookup_append]
    split
    · next hmem =>
      -- A name that is taken has a rule already, and no other name is touched.
      rw [← get?, ih]
      by_cases hname : name = r.1
      · have htaken : (rs.lookup name).isSome := by
          rw [← ih, Option.isSome_iff_ne_none, ne_eq, get?_eq_none, not_not, hname]
          exact hmem
        rw [Option.or_of_isSome htaken]
      · rw [List.lookup_cons, beq_eq_false_iff_ne.2 hname, List.lookup_nil, Option.or_none]
    · rw [List.lookup_append, ← get?, ih]

/-! ### What is read as a rule set -/

/-- The first statement is that of a rule, which is added before the others. -/
theorem addStatements_cons {e : Entry Term} : s.addStatements (e :: es) = .ok s' ↔
    ∃ r s₁, e.unmodified = statement r ∧ s.add r.1 r.2 = .ok s₁ ∧
      s₁.addStatements es = .ok s' := by
  obtain ⟨label, modifiers, value⟩ := e
  constructor
  · intro h
    rw [addStatements] at h
    -- A statement is read as a rule if it has the right type and its value is a rule.
    split at h
    · cases h
    · next htype =>
      split at h
      · next source target hvalue =>
        obtain ⟨s₁, hadd, hs₁⟩ := bind_eq_ok.1 h
        cases label with
        | typed type n =>
          obtain rfl : type = ruleType := Option.some.inj (not_not.1 htype)
          obtain rfl : value = .rule source target := hvalue
          exact ⟨(n, ⟨source, target⟩), s₁, rfl, hadd, hs₁⟩
        | _ => exact absurd nofun htype
      · cases h
  · rintro ⟨⟨n, rule⟩, s₁, he, hadd, h⟩
    cases he
    rw [addStatements]
    split
    · next htype => exact absurd rfl htype
    · exact bind_eq_ok.2 ⟨s₁, hadd, h⟩

/-- **Statements are read as rules** just when they are those of rules whose names are new. -/
theorem addStatements_eq_ok : s.addStatements es = .ok s' ↔
    ∃ rs, s'.rules = s.rules ++ rs ∧ es.map Entry.unmodified = rs.map statement := by
  induction es generalizing s with
  | nil =>
    constructor
    · intro h
      cases h
      exact ⟨[], (List.append_nil _).symm, rfl⟩
    · rintro ⟨rs, hrules, hmap⟩
      obtain rfl := List.map_eq_nil_iff.1 hmap.symm
      exact congrArg _ (ext_rules (hrules.trans (List.append_nil _)).symm)
  | cons e es ih =>
    rw [addStatements_cons]
    constructor
    · rintro ⟨r, s₁, he, hadd, h⟩
      obtain ⟨rs, hrules, hmap⟩ := ih.1 h
      refine ⟨r :: rs, ?_, by rw [List.map_cons, List.map_cons, he, hmap]⟩
      rw [hrules, (add_eq_ok.1 hadd).2, List.append_assoc]
      rfl
    · rintro ⟨rs, hrules, hmap⟩
      cases rs with
      | nil => cases hmap
      | cons r rs =>
        obtain ⟨he, hmap⟩ := List.cons.inj hmap
        -- No name occurs twice in the set that is to be read.
        have hnew : s.get? r.1 = none := by
          have hnodup := s'.nodup
          rw [hrules, List.map_append, List.nodup_append] at hnodup
          exact get?_eq_none.2 fun hmem ↦ hnodup.2.2 _ hmem _ List.mem_cons_self rfl
        obtain ⟨s₁, hadd, hrules₁⟩ := exists_add r.2 hnew
        refine ⟨r, s₁, he, hadd, ih.2 ⟨rs, ?_, hmap⟩⟩
        rw [hrules, hrules₁, List.append_assoc]
        rfl

/-- **What is read as a rule set**: a call of its name without parameters, with the statements of
its rules inside. -/
theorem ofTerm_eq_ok : ofTerm t = .ok s ↔ ∃ form internal,
    t = .call genericName ⟨[], form⟩ internal ∧
      (internal.getD []).map Entry.unmodified = s.rules.map statement := by
  constructor
  · intro h
    cases t with
    | call n parameters internal =>
      rw [ofTerm] at h
      split at h
      · cases h
      · next hname =>
        split at h
        · cases h
        · next hparameters =>
          obtain ⟨rs, hrules, hmap⟩ := addStatements_eq_ok.1 h
          obtain rfl : s.rules = rs := hrules
          obtain ⟨parameters, form⟩ := parameters
          obtain rfl : parameters = [] := by simpa [Listing.isEmpty] using hparameters
          exact ⟨form, internal, by rw [not_not.1 hname], hmap⟩
    | _ => cases h
  · rintro ⟨form, internal, rfl, hmap⟩
    rw [ofTerm, if_neg (not_not.2 rfl), if_neg (by simp [Listing.isEmpty])]
    exact addStatements_eq_ok.2 ⟨s.rules, rfl, hmap⟩

/-- **A rule set is read off its own term.** -/
theorem ofTerm_toTerm (s : RuleSet) : ofTerm s.toTerm = .ok s :=
  ofTerm_eq_ok.2 ⟨.parameters, _, rfl, by rw [Option.getD_some, List.map_map]; rfl⟩

/-- Different rule sets have different terms. -/
theorem toTerm_injective (h : s.toTerm = s'.toTerm) : s = s' := by
  have hs := ofTerm_toTerm s
  rw [h, ofTerm_toTerm] at hs
  exact (Except.ok.inj hs).symm

/-- Statements whose values are rules are those of some rules. -/
theorem exists_rules
    (h : ∀ e ∈ es, e.type? = some ruleType ∧ ∃ source target, e.value = .rule source target) :
    ∃ rs : List (String × Rule), es.map Entry.unmodified = rs.map statement := by
  induction es with
  | nil => exact ⟨[], rfl⟩
  | cons e es ih =>
    obtain ⟨⟨htype, source, target, hvalue⟩, hes⟩ := List.forall_mem_cons.1 h
    obtain ⟨rs, hrs⟩ := ih hes
    obtain ⟨label, modifiers, value⟩ := e
    cases label with
    | typed type n =>
      obtain rfl : type = ruleType := Option.some.inj htype
      obtain rfl : value = .rule source target := hvalue
      exact ⟨(n, ⟨source, target⟩) :: rs, congrArg _ hrs⟩
    | _ => cases htype

/-- The statements of rules bear their names. -/
theorem map_name?_of_statements {rs : List (String × Rule)}
    (h : es.map Entry.unmodified = rs.map statement) :
    es.map Entry.name? = (rs.map Prod.fst).map some := by
  have hnames := congrArg (List.map Entry.name?) h
  rw [List.map_map, List.map_map] at hnames
  rw [List.map_map]
  exact hnames

/-- **A term is read as a rule set** just when it is written like one: a call of its name without
parameters, whose internal listing, if there is one, has statements of the type of rules alone, with
different names and with rules for values. -/
theorem exists_ofTerm_eq_ok : (∃ s, ofTerm t = .ok s) ↔ ∃ form internal,
    t = .call genericName ⟨[], form⟩ internal ∧
      (∀ e ∈ internal.getD [],
        e.type? = some ruleType ∧ ∃ source target, e.value = .rule source target) ∧
      ((internal.getD []).map Entry.name?).Nodup := by
  constructor
  · rintro ⟨s, hs⟩
    obtain ⟨form, internal, rfl, hmap⟩ := ofTerm_eq_ok.1 hs
    refine ⟨form, internal, rfl, fun e he ↦ ?_, ?_⟩
    · obtain ⟨r, -, hr⟩ := List.mem_map.1 (hmap ▸ List.mem_map.2 ⟨e, he, rfl⟩)
      exact ⟨(congrArg Entry.type? hr).symm, r.2.source, r.2.target,
        (congrArg Entry.value hr).symm⟩
    · rw [map_name?_of_statements hmap]
      exact s.nodup.map fun _ _ ↦ Option.some.inj
  · rintro ⟨form, internal, rfl, hrules, hnames⟩
    obtain ⟨rs, hrs⟩ := exists_rules hrules
    rw [map_name?_of_statements hrs] at hnames
    exact ⟨⟨rs, hnames.of_map _⟩, ofTerm_eq_ok.2 ⟨form, internal, rfl, hrs⟩⟩

/-! ### Rule sets that can be written -/

theorem isWellFormed_toTerm (h : ∀ r ∈ s.rules, r.2.toTerm.isWellFormed = true) :
    s.toTerm.isWellFormed = true := by
  have hstatements : Listing.areStatements (s.rules.map statement) = true :=
    List.all_eq_true.2 fun e he ↦ by
      obtain ⟨r, -, rfl⟩ := List.mem_map.1 he
      rfl
  have hvalues : Term.entriesWellFormed (s.rules.map statement) = true := by
    rw [Term.entriesWellFormed_eq, List.all_map]
    exact List.all_eq_true.2 h
  show (true && _ && _) = true
  rw [hstatements, hvalues]
  rfl

/-- **A rule set that is read off a well-formed term is written as one.** -/
theorem isWellFormed_of_ofTerm (ht : t.isWellFormed = true) (h : ofTerm t = .ok s) :
    s.toTerm.isWellFormed = true := by
  obtain ⟨form, internal, rfl, hmap⟩ := ofTerm_eq_ok.1 h
  refine isWellFormed_toTerm fun r hr ↦ ?_
  -- The term of a rule is the value of its statement, which stands inside the call.
  obtain ⟨e, he, hre⟩ := List.mem_map.1 (hmap ▸ List.mem_map.2 ⟨r, hr, rfl⟩)
  cases internal with
  | none => cases he
  | some inside =>
    have hvalues : Term.entriesWellFormed inside = true := (Bool.and_eq_true_iff.1 ht).2
    rw [Term.entriesWellFormed_eq] at hvalues
    have hvalue : e.value = r.2.toTerm := congrArg Entry.value hre
    exact hvalue ▸ List.all_eq_true.1 hvalues e he

/-- **Rule sets persist.** A rule set that is built by adding rules, some of which may be refused,
has the first rule of each name, in the order in which the names came up, and is read off its own
term. A rule set that is read off a term that was parsed has a text that parses to its own term, off
which it is read again. And a term is read as a rule set just when it is written like one. -/
theorem persist :
    (∀ rs, (ofAdditions rs).names = (rs.map Prod.fst).eraseDups ∧
      (∀ name, (ofAdditions rs).get? name = rs.lookup name) ∧
      ofTerm (ofAdditions rs).toTerm = .ok (ofAdditions rs)) ∧
    (∀ text t s, Term.parse text = .ok t → ofTerm t = .ok s →
      Term.parse s.toTerm.render = .ok s.toTerm ∧ ofTerm s.toTerm = .ok s) ∧
    ∀ t, (∃ s, ofTerm t = .ok s) ↔ ∃ form internal,
      t = .call genericName ⟨[], form⟩ internal ∧
        (∀ e ∈ internal.getD [],
          e.type? = some ruleType ∧ ∃ source target, e.value = .rule source target) ∧
        ((internal.getD []).map Entry.name?).Nodup := by
  refine ⟨fun rs ↦ ⟨names_ofAdditions rs, get?_ofAdditions rs, ofTerm_toTerm _⟩,
    fun text t s ht hs ↦ ⟨?_, ofTerm_toTerm s⟩, fun t ↦ exists_ofTerm_eq_ok⟩
  exact Term.parse_render_eq_ok.2 (isWellFormed_of_ofTerm (Term.isWellFormed_of_parse ht) hs)

/-- A rule whose name is no bare word, in a statement with a modifier: the set that is read off the
term has another term of its own, off which it is read again. -/
theorem persist_modified :
    let rule : Rule := ⟨.capture "c", .composite (.reference "f") (.reference "c")⟩
    let s : RuleSet := { rules := [("a b", rule)] }
    let t : Term := .call "RuleSet" {} (some [⟨.typed "rule" "a b", ["m"], rule.toTerm⟩])
    (∃ s, ofTerm t = .ok s) ∧ ofTerm t = .ok s ∧ s.toTerm ≠ t ∧
      Term.parse s.toTerm.render = .ok s.toTerm ∧ ofTerm s.toTerm = .ok s := by
  intro rule s t
  obtain ⟨-, hread, hiff⟩ := persist
  have hparse : Term.parse t.render = .ok t := Term.parse_render_eq_ok.2 (by decide)
  have hs : ofTerm t = .ok s := rfl
  refine ⟨(hiff t).2 ⟨.parameters, _, rfl, ?_, List.nodup_singleton _⟩, hs, by decide,
    hread _ t s hparse hs⟩
  exact List.forall_mem_singleton.2 ⟨rfl, _, _, rfl⟩

end RuleSet

end TermRegistry
