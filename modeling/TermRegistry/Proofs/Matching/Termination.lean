import TermRegistry.Proofs.Matching.Correctness

/-!
# The bound on the depth of a match

Running out of depth is the least that matching can say: at a greater depth it says the same, or
more (`Matching.matchWithin_approximates`). Over an acyclic storage the bound that `Term.matching`
sets is never used up, so any greater bound gives the same outcome (`Matching.matchWithin_eq`), and
no match is circular (`Term.matching_ne_circular`).
-/

namespace TermRegistry

namespace Matching

variable {α β : Type} {step step' : Step} {p c : Term} {b : Binding} {depth depth' : Nat}
  {resolve : String → Option Term}

/-! ### Approximations -/

/-- A computation **approximates** another one if it runs out of depth or is the same. -/
def Approximates (x y : Except Stop α) : Prop := x = .error .exhausted ∨ x = y

namespace Approximates

theorem refl (x : Except Stop α) : Approximates x x := .inr rfl

/-- Approximations can be put together: the weaker one runs out, or both are the same. -/
theorem trans {x y z : Except Stop α} (h : Approximates x y) (h' : Approximates y z) :
    Approximates x z := by
  rcases h with rfl | rfl
  · exact .inl rfl
  · exact h'

/-- **What goes on after approximations** approximates, if the continuations do. -/
theorem bind {x y : Except Stop α} {f g : α → Except Stop β} (h : Approximates x y)
    (hf : ∀ a, Approximates (f a) (g a)) : Approximates (x.bind f) (y.bind g) := by
  rcases h with rfl | rfl
  · exact .inl rfl
  · cases x with
    | error e => exact .refl _
    | ok a => exact hf a

end Approximates

/-- Steps that approximate others do so on named entries. -/
theorem matchNamed_approximates (h : ∀ u v b, Approximates (step u v b) (step' u v b))
    (c : Listing Term) (es : List (Entry Term)) (b : Binding) :
    Approximates (matchNamed step c es b) (matchNamed step' c es b) := by
  induction es generalizing b with
  | nil => exact .refl _
  | cons e es ih =>
    rw [matchNamed, matchNamed]
    exact .bind (.refl _) fun v ↦ (h e.value v b).bind ih

/-- Steps that approximate others do so on items. -/
theorem matchAll_approximates (h : ∀ u v b, Approximates (step u v b) (step' u v b))
    (ps cs : List Term) (b : Binding) :
    Approximates (matchAll step ps cs b) (matchAll step' ps cs b) := by
  induction ps generalizing cs b with
  | nil => exact .refl _
  | cons p ps ih =>
    cases cs with
    | nil => exact .refl _
    | cons c cs => exact (h p c b).bind fun b₁ ↦ ih cs b₁

/-- Steps that approximate others do so on listings. -/
theorem matchListing_approximates (h : ∀ u v b, Approximates (step u v b) (step' u v b))
    (p c : Listing Term) (b : Binding) :
    Approximates (matchListing step p c b) (matchListing step' p c b) := by
  rw [matchListing, matchListing]
  repeat' split
  · exact .refl _
  · exact .refl _
  · exact .refl _
  · exact matchNamed_approximates h c p.entries b
  · exact matchAll_approximates h _ _ b

/-- Steps that approximate others do so on shapes. -/
theorem matchShape_approximates (h : ∀ u v b, Approximates (step u v b) (step' u v b))
    (p c : Term) (b : Binding) :
    Approximates (matchShape step p c b) (matchShape step' p c b) := by
  rw [matchShape.eq_def, matchShape.eq_def]
  split
  · exact .refl _
  · split
    · exact matchAll_approximates h _ _ b
    · exact .refl _
  · exact matchListing_approximates h _ _ b
  · split
    · exact matchListing_approximates h _ _ b
    · exact .refl _
  · next s t s' t' => exact (h s s' b).bind fun b₁ ↦ h t t' b₁
  · exact .refl _

/-! ### Greater depths -/

/-- One more level of depth changes nothing but that a match may not run out. -/
theorem matchWithin_approximates_succ (resolve : String → Option Term) (depth : Nat) (p c : Term)
    (b : Binding) :
    Approximates (matchWithin resolve depth p c b) (matchWithin resolve (depth + 1) p c b) := by
  induction depth generalizing p c b with
  | zero => exact .inl rfl
  | succ depth ih =>
    induction p, c using step_cases with
    | hcapture name c => exact .refl _
    | hsame name =>
      rw [matchWithin_same, matchWithin_same]
      exact .refl _
    | hstored name c hc =>
      rw [matchWithin_reference hc, matchWithin_reference hc]
      cases resolve name with
      | none => exact .refl _
      | some u => exact (ih u c b).bind fun b₁ ↦ .refl (.ok (b₁.note name c))
    | hfollowed p name hp =>
      rw [matchWithin_followed hp, matchWithin_followed hp]
      exact .bind (.refl _) fun u ↦ ih p u b
    | hshape p c hp hc =>
      rw [matchWithin_shape hp hc, matchWithin_shape hp hc]
      exact matchShape_approximates ih p c b

/-- **Matching approximates matching at any greater depth.** -/
theorem matchWithin_approximates (h : depth ≤ depth') (p c : Term) (b : Binding) :
    Approximates (matchWithin resolve depth p c b) (matchWithin resolve depth' p c b) := by
  induction h with
  | refl => exact .refl _
  | step _ ih => exact ih.trans (matchWithin_approximates_succ resolve _ p c b)

/-- Between terms that have heights, no match uses up a depth that is as great as these together. -/
theorem matchWithin_ne_exhausted_of_heights {k l : Nat} (hk : HeightLE resolve k p)
    (hl : HeightLE resolve l c) (hdepth : k + l ≤ depth + 1) (b : Binding) :
    matchWithin resolve depth p c b ≠ .error .exhausted := by
  have hall : Closed resolve Set.univ := fun _ _ _ _ _ _ ↦ Set.mem_univ _
  exact fun h ↦ matchWithin_failsBy hall (fun _ _ ↦ Set.mem_univ _) hk hl hdepth b _ h

/-- **The bound on the depth is never used up** over an acyclic storage. -/
theorem matchWithin_ne_exhausted {s : Storage} (hs : s.Acyclic) (p c : Term) (b : Binding) :
    matchWithin s.resolve (depthBound s p c) p c b ≠ .error .exhausted :=
  matchWithin_ne_exhausted_of_heights (hs.heightLE p) (hs.heightLE c) (heights_within s p c) b

/-- **Over an acyclic storage any bound that is great enough will do.** -/
theorem matchWithin_eq {s : Storage} (hs : s.Acyclic) (h : depthBound s p c ≤ depth)
    (b : Binding) :
    matchWithin s.resolve depth p c b = matchWithin s.resolve (depthBound s p c) p c b := by
  rcases matchWithin_approximates h p c b with hexhausted | heq
  · exact absurd hexhausted (matchWithin_ne_exhausted hs p c b)
  · exact heq.symm

end Matching

/-- **No match is circular** over an acyclic storage. -/
theorem Term.matching_ne_circular {s : Storage} (hs : s.Acyclic) (p c : Term) :
    Term.matching s p c ≠ .error .circular := by
  rw [Term.matching]
  cases hrun : Matching.matchWithin s.resolve (Matching.depthBound s p c) p c {} with
  | ok b =>
    intro h
    cases h
  | error e =>
    intro h
    cases e with
    | exhausted => exact Matching.matchWithin_ne_exhausted hs p c {} hrun
    | mismatch => cases h
    | unresolved name => cases h

end TermRegistry
