import TermRegistry.Error

/-!
# Rule sets

A rule set is a list of named rules, in the order they were added, with no name twice. It is
written

```text
RuleSet() { rule NAME=(source) -> (target); ... }
```

`RuleSet.ofTerm` reads that form and `RuleSet.toTerm` writes it.
-/

namespace TermRegistry

/-- A rule: what it applies to and what it then yields. -/
structure Rule where
  source : Term
  target : Term
deriving DecidableEq, Inhabited

/-- A rule as a term. -/
def Rule.toTerm (r : Rule) : Term := .rule r.source r.target

/-- Named rules, no name twice. -/
structure RuleSet where
  rules : List (String × Rule) := []
  nodup : (rules.map Prod.fst).Nodup := by decide
deriving DecidableEq

namespace RuleSet

instance : Inhabited RuleSet := ⟨{}⟩

/-- The name of the calls that denote rule sets. -/
def genericName : String := "RuleSet"

/-- The declaration type of the rules in a rule set. -/
def ruleType : String := "rule"

/-- The rule of a name. -/
def get? (s : RuleSet) (name : String) : Option Rule := s.rules.lookup name

/-- The names of the rules, in order. -/
def names (s : RuleSet) : List String := s.rules.map Prod.fst

/-- The number of rules. -/
def size (s : RuleSet) : Nat := s.rules.length

theorem notMem_names_of_get? {s : RuleSet} {name : String} (h : s.get? name = none) :
    name ∉ s.names := by
  intro hm
  obtain ⟨⟨n, r⟩, hr, rfl⟩ := List.mem_map.1 hm
  rw [get?, List.lookup_eq_none_iff] at h
  simpa using h ⟨n, r⟩ hr

/-- Adds a rule behind the others; refused if its name is taken. -/
def add (s : RuleSet) (name : String) (rule : Rule) : Except Error RuleSet :=
  match h : s.get? name with
  | some _ => .error (.duplicateName ruleType name)
  | none => .ok ⟨s.rules ++ [(name, rule)], by
      have := notMem_names_of_get? h
      rw [List.map_append, List.nodup_append]
      refine ⟨s.nodup, by simp, fun a ha b hb hab ↦ this ?_⟩
      simp only [List.map_cons, List.map_nil, List.mem_singleton] at hb
      rwa [← hb, ← hab]⟩

/-- Adds the rules of some statements. -/
def addStatements (s : RuleSet) : List (Entry Term) → Except Error RuleSet
  | [] => .ok s
  | e :: es =>
    if e.type? ≠ some ruleType then
      .error (.structural (.notRuleStatement e))
    else
      match e.value with
      | .rule source target => do
        addStatements (← s.add (e.name?.getD "") ⟨source, target⟩) es
      | _ => .error (.structural (.notRule (e.name?.getD "")))

/-- **Reads a rule set.** -/
def ofTerm : Term → Except Error RuleSet
  | .call name parameters internal =>
    if name ≠ genericName then .error (.structural .notRuleSet)
    else if !parameters.isEmpty then .error (.structural .ruleSetParameters)
    else addStatements {} (internal.getD [])
  | _ => .error (.structural .notRuleSet)

/-- The statement of a rule. -/
def statement (named : String × Rule) : Entry Term :=
  ⟨.typed ruleType named.1, [], named.2.toTerm⟩

/-- **Writes a rule set.** -/
def toTerm (s : RuleSet) : Term :=
  .call genericName {} (some (s.rules.map statement))

/-- The counterpart of a rule set in a binary labelling. Rules carry no label, so it is the same
rule set. -/
def binary (s : RuleSet) (_label : String) : RuleSet := s

end RuleSet

end TermRegistry
