import TermRegistry.Proofs.Matching.Endless
import TermRegistry.Proofs.Matching.Locality

/-!
# Matching without a bound

Because the bound on the depth of a match is right (`matchWithin_of_depthBound_le`), what matching
comes to at that bound satisfies the equations of matching in which no depth is mentioned. They are
collected here, for `Matching.matchFully`. With them, two matches can be compared in which the same
work is done at different depths: one side may follow a reference where the other one has nothing to
follow. A match without an end is no exception; it runs out of depth on both sides of an equation.
-/

namespace TermRegistry

namespace Matching

variable {s : Storage} {p c u : Term} {name : String}

/-- **Matching without a bound**: what it comes to at any depth that is great enough. -/
def matchFully (s : Storage) : Step :=
  fun p c b ↦ matchWithin s.resolve (depthBound s p c) p c b

/-- A depth that is enough for one pair is enough for another one. -/
theorem matchWithin_eq_matchFully {depth : Nat} (h : depthBound s p c ≤ depth) (b : Binding) :
    matchWithin s.resolve depth p c b = matchFully s p c b :=
  matchWithin_of_depthBound_le h b

/-- The bound for parts is smaller, so it leaves room for the step to them. -/
theorem depthBound_lt_of_parts {v w : Term} (hv : v ∈ p.parts) (hw : w ∈ c.parts) :
    depthBound s v w < depthBound s p c := by
  have hp := Nat.add_lt_add_right (Term.size_lt_of_mem_parts hv) s.weight
  have hc := Nat.add_lt_add_right (Term.size_lt_of_mem_parts hw) s.weight
  rw [depthBound, depthBound]
  exact Nat.add_lt_add_right (Nat.mul_lt_mul'' hp hc) 1

/-! ### The equations of matching -/

/-- A reference meets itself and is noted. -/
theorem matchFully_same (s : Storage) (name : String) (b : Binding) :
    matchFully s (.reference name) (.reference name) b = .ok (b.note name (.reference name)) :=
  matchWithin_same s.resolve _ name b

/-- A reference that nothing is stored for is an error. -/
theorem matchFully_unresolved (hc : c ≠ .reference name) (hu : s.resolve name = none)
    (b : Binding) : matchFully s (.reference name) c b = .error (.unresolved name) := by
  rw [matchFully, depthBound, matchWithin_reference hc, hu]

/-- **A reference in the pattern is matched like what is stored for it**, and noted. -/
theorem matchFully_stored (hc : c ≠ .reference name) (hu : s.resolve name = some u)
    (b : Binding) :
    matchFully s (.reference name) c b = (matchFully s u c b).map (·.note name c) := by
  let depth := max (depthBound s (.reference name) c) (depthBound s u c)
  have hpair : depthBound s (.reference name) c ≤ depth + 1 :=
    (le_max_left _ _).trans (Nat.le_succ _)
  rw [← matchWithin_eq_matchFully hpair, matchWithin_reference hc, hu]
  dsimp only
  rw [matchWithin_eq_matchFully (le_max_right _ _)]

/-- **A reference in the candidate is matched like what is stored for it.** -/
theorem matchFully_followed (hp : p.isConcrete = true) (hu : s.resolve name = some u)
    (b : Binding) : matchFully s p (.reference name) b = matchFully s p u b := by
  let depth := max (depthBound s p (.reference name)) (depthBound s p u)
  have hpair : depthBound s p (.reference name) ≤ depth + 1 :=
    (le_max_left _ _).trans (Nat.le_succ _)
  rw [← matchWithin_eq_matchFully hpair, matchWithin_followed hp, hu]
  exact matchWithin_eq_matchFully (le_max_right _ _) b

/-- Where neither is a reference or a capture, the shapes are matched, part by part in full. -/
theorem matchFully_shape (hp : p.isConcrete = true) (hc : c.reference? = none) (b : Binding) :
    matchFully s p c b = matchShape (matchFully s) p c b := by
  rw [matchFully, depthBound, matchWithin_shape hp hc]
  refine matchShape_congr (fun v hv w hw b ↦ ?_) b
  exact matchWithin_eq_matchFully (Nat.le_of_lt_succ (depthBound_lt_of_parts hv hw)) b

end Matching

end TermRegistry
