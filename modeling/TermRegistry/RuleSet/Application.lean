import TermRegistry.Matching
import TermRegistry.RuleSet
import TermRegistry.Text.Decimal

/-!
# Applying rules

A rule applies to the terms that its source matches. It yields its target with every reference
replaced at once: by what the match bound to the name, by an extra binding, by a successor, or
else by what the surroundings give. The successor `n++` is bound for every name `n` that is bound
to a numeral. What is put in is not looked at again.
-/

namespace TermRegistry

namespace Term

mutual

/-- **Simultaneous substitution** of references. A capture cannot be substituted. -/
def substitute (given : String → Option Term) : Term → Except Error Term
  | text s => .ok (text s)
  | reference name =>
    match given name with
    | some t => .ok t
    | none => .error (.unresolved name)
  | capture name => .error (.structural (.misplacedCapture name))
  | array items => do return array (← substituteAll given items)
  | listing ⟨entries, form⟩ => do return listing ⟨← substituteEntries given entries, form⟩
  | call name ⟨entries, form⟩ internal => do
    let entries ← substituteEntries given entries
    return call name ⟨entries, form⟩ (← substituteInternal given internal)
  | rule source target => do
    return rule (← source.substitute given) (← target.substitute given)

/-- Substitution in each of some terms. -/
def substituteAll (given : String → Option Term) : List Term → Except Error (List Term)
  | [] => .ok []
  | t :: ts => do
    let t ← t.substitute given
    return t :: (← substituteAll given ts)

/-- Substitution in the values of some entries. Only entries with a declaration type keep their
modifiers. -/
def substituteEntries (given : String → Option Term) :
    List (Entry Term) → Except Error (List (Entry Term))
  | [] => .ok []
  | ⟨label, modifiers, t⟩ :: es => do
    let t ← t.substitute given
    let kept := if label.type?.isSome then modifiers else []
    return ⟨label, kept, t⟩ :: (← substituteEntries given es)

/-- Substitution in the internal listing of a call. -/
def substituteInternal (given : String → Option Term) :
    Option (List (Entry Term)) → Except Error (Option (List (Entry Term)))
  | none => .ok none
  | some es => do return some (← substituteEntries given es)

end

end Term

namespace Binding

/-- The name of the successor of what a name is bound to. -/
def successorName (name : String) : String := name ++ "++"

/-- The successors of the numerals in a binding, the whole term aside. -/
def successors (b : Binding) : Binding :=
  ⟨b.entries.filterMap fun e ↦
    if e.1 = wholeName then none
    else (e.2.text?.bind Text.successor?).map fun next ↦ (successorName e.1, .text next)⟩

/-- A binding together with the successors it does not bind itself. -/
def withSuccessors (b : Binding) : Binding := b.union b.successors

end Binding

/-- What rules are applied in: the storage that matching resolves references through, and what is
put in for the references of a target that nothing binds. -/
structure Surroundings where
  storage : Storage
  given : String → Option Term

/-- **Applies a rule** to a term; nothing if its source does not match. -/
def Rule.apply (around : Surroundings) (extra : Binding) (source : Term) (r : Rule) :
    Except Error (Option Term) := do
  let some b ← r.source.matching around.storage source | return none
  let b := (b.union extra).withSuccessors
  return some (← r.target.substitute fun name ↦ (b.get? name).or (around.given name))

namespace RuleSet

/-- What the rules of a set derive, and the errors of those that match without yielding a term. If
the match of a rule has no end, neither has going through the rules: then the derivation is endless,
and it is what the rules in front of that one come to. -/
structure Derivation where
  derived : List (String × Term) := []
  errors : List Error := []
  endless : Bool := false
deriving Inhabited

/-- The derivation of some rules, in their order. -/
def derive (around : Surroundings) (extra : Binding) (source : Term) :
    List (String × Rule) → Derivation
  | [] => {}
  | (name, rule) :: rules =>
    match rule.apply around extra source with
    | .ok (some t) =>
      let rest := derive around extra source rules
      { rest with derived := (name, t) :: rest.derived }
    | .ok none => derive around extra source rules
    | .error .circular => { endless := true }
    | .error e =>
      let rest := derive around extra source rules
      { rest with errors := e :: rest.errors }

/-- **Applies every rule** of a set. The derived terms are in the order of the rules' names, the
errors in the order of the rules. -/
def applyAll (around : Surroundings) (extra : Binding) (source : Term) (s : RuleSet) :
    Derivation :=
  let d := derive around extra source s.rules
  { d with derived := d.derived.mergeSort fun a b ↦ decide (a.1 ≤ b.1) }

end RuleSet

end TermRegistry
