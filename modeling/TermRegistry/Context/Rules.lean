import TermRegistry.Context.Operations
import TermRegistry.RuleSet.Application

/-!
# Rules in a context

Rules are applied with the context as the storage that references are resolved through. What a
target refers to and nothing binds is put in from the entries for texts and arrays.
-/

namespace TermRegistry

namespace Context

/-- What a context gives for the references of a target: its text or array of that name. -/
def given (ctx : Context) (name : String) : Option Term :=
  ((ctx.find? .value name).or (ctx.find? .array name)).map Kept.toTerm

/-- A context as the surroundings of rules. -/
def surroundings (ctx : Context) : Surroundings := ⟨ctx.storage, ctx.given⟩

/-- **Applies every rule of a set** to a term. The derived terms are sorted by the names of their
rules; the errors of rules that match without yielding a term are reported. A rule whose match has
no end is not passed over: there is no result then. -/
def applyRules (ctx : Context) (rules : RuleSet) (source : Term) (extra : Binding) :
    Reported (List (String × Term)) :=
  let d := rules.applyAll ctx.surroundings extra source
  { result := if d.endless then .error .circular else .ok d.derived, reports := d.errors }

/-- **Applies one rule of a set**; nothing if it does not match. That there is no rule of the name
is not reported. -/
def applyRule (ctx : Context) (rules : RuleSet) (name : String) (source : Term)
    (extra : Binding) : Reported (Option Term) :=
  match rules.get? name with
  | some rule => .of (rule.apply ctx.surroundings extra source)
  | none => { result := .error (.unresolved name) }

end Context

end TermRegistry
