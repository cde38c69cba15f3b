import TermRegistry.Binding
import TermRegistry.Error
import TermRegistry.Storage

/-!
# Matching

A pattern is matched against a candidate from left to right, and one failure anywhere fails the
whole match. A capture in the pattern binds what it meets, and has to meet equal terms wherever
it occurs. References stand for what the storage resolves them to, on either side: one that is
met in the pattern is noted in the binding, and is an error if nothing resolves it, unless the
candidate is the same reference; one in the candidate that nothing resolves is no match.

Internal listings play no part in matching, and neither do declaration types and modifiers. A
pattern may leave out parameters of the candidate, and an array pattern that holds a capture may
leave out items at the end.

The recursion goes on through the storage, so it is driven by a bound on its depth, and running
out of it is an outcome of its own. `Term.matching` takes the number of pairs of a term on the
pattern's side and one on the candidate's: a deeper recursion would meet the same pair twice.
-/

namespace TermRegistry

/-- Why matching stops before its end. -/
inductive Stop
  | mismatch
  | unresolved (name : String)
  /-- The bound on the depth is used up. -/
  | exhausted
deriving DecidableEq, Repr, Inhabited

namespace Matching

/-- One step of matching: what a pattern and a candidate add to a binding. -/
abbrev Step := Term → Term → Binding → Except Stop Binding

/-- Goes on with the result, if there is one; no result is a mismatch. -/
def orMismatch {α : Type} : Option α → Except Stop α
  | some a => .ok a
  | none => .error .mismatch

/-- Matches terms pair by pair, as far as both lists go. -/
def matchAll (step : Step) : List Term → List Term → Binding → Except Stop Binding
  | p :: ps, c :: cs, b => do matchAll step ps cs (← step p c b)
  | _, _, b => .ok b

/-- Matches each named entry against the candidate's first entry of that name. -/
def matchNamed (step : Step) (c : Listing Term) :
    List (Entry Term) → Binding → Except Stop Binding
  | [], b => .ok b
  | e :: es, b => do
    let value ← orMismatch (c.get? (e.name?.getD ""))
    matchNamed step c es (← step e.value value b)

/-- Matches listings: entry by entry, or name by name. -/
def matchListing (step : Step) (p c : Listing Term) (b : Binding) : Except Stop Binding :=
  if c.size < p.size then .error .mismatch
  else if p.isEmpty then .ok b
  else if p.isNamed != c.isNamed then .error .mismatch
  else if p.isNamed then matchNamed step c p.entries b
  else matchAll step (p.entries.map (·.value)) (c.entries.map (·.value)) b

/-- Whether an array pattern can match this many items: as many as it has, or more if it holds a
capture. -/
def fits (patterns candidates : List Term) : Bool :=
  patterns.length == candidates.length ||
    (decide (patterns.length < candidates.length) && Term.anyCapture patterns)

/-- Matches two terms of which neither is a reference and the first is no capture. -/
def matchShape (step : Step) : Step
  | .text s, .text t, b => if s = t then .ok b else .error .mismatch
  | .array ps, .array cs, b => if fits ps cs then matchAll step ps cs b else .error .mismatch
  | .listing p, .listing c, b => matchListing step p c b
  | .call f p _, .call g c _, b => if f = g then matchListing step p c b else .error .mismatch
  | .rule s t, .rule s' t', b => do step t t' (← step s s' b)
  | _, _, _ => .error .mismatch

/-- Matches a pattern against a candidate, through references and at most so deep. -/
def matchWithin (resolve : String → Option Term) : Nat → Step
  | 0, _, _, _ => .error .exhausted
  | depth + 1, p, c, b =>
    match p with
    | .capture name => orMismatch (b.bind? name c)
    | .reference name =>
      if c = .reference name then .ok (b.note name c)
      else
        match resolve name with
        | some stored => return (← matchWithin resolve depth stored c b).note name c
        | none => .error (.unresolved name)
    | p =>
      match c with
      | .reference name => do
        matchWithin resolve depth p (← orMismatch (resolve name)) b
      | c => matchShape (matchWithin resolve depth) p c b

/-- A depth of recursion that no match on these terms has to exceed, unless references lead back
to themselves. -/
def depthBound (s : Storage) (p c : Term) : Nat :=
  (p.size + s.weight) * (c.size + s.weight) + 1

end Matching

/-- **Matching.** What a pattern binds when it is matched against a candidate, together with the
whole candidate under the name `""`; nothing if it does not match. A match that no depth is enough
for has no end, and is `Error.circular`. -/
def Term.matching (s : Storage) (pattern candidate : Term) : Except Error (Option Binding) :=
  match Matching.matchWithin s.resolve (Matching.depthBound s pattern candidate) pattern candidate
      {} with
  | .ok b => .ok (some (b.insert Binding.wholeName candidate))
  | .error .mismatch => .ok none
  | .error (.unresolved name) => .error (.unresolved name)
  | .error .exhausted => .error .circular

/-- Whether a pattern matches, errors counting as no match. -/
def Term.matches (s : Storage) (pattern candidate : Term) : Bool :=
  match Term.matching s pattern candidate with
  | .ok (some _) => true
  | _ => false

end TermRegistry
