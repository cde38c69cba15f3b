import TermRegistry.Proofs.Matching.Correctness

/-!
# What matching asks the storage

Matching asks the storage for the references of the terms it meets and for no other names. So if two
storages agree on some names, and the terms stored under these mention no others, then a pattern and
a candidate that mention no others are matched alike over both (`Matching.matchWithin_congr`): with
the same binding, or with the same failure. The storages need not agree on what they store under
other names, only on how much that is, because the bound on the depth is reckoned from it.
-/

namespace TermRegistry

namespace Matching

section

variable {step step' : Step} {p c : Term}

/-- Items are matched alike if all pairs of them are. -/
theorem matchAll_congr {ps cs : List Term}
    (h : ∀ u ∈ ps, ∀ v ∈ cs, ∀ b, step u v b = step' u v b) (b : Binding) :
    matchAll step ps cs b = matchAll step' ps cs b := by
  induction ps generalizing cs b with
  | nil => rfl
  | cons p ps ih =>
    cases cs with
    | nil => rfl
    | cons c cs =>
      rw [matchAll, matchAll, h p List.mem_cons_self c List.mem_cons_self]
      refine congrArg _ (funext fun b₁ ↦ ih (fun u hu v hv ↦ ?_) b₁)
      exact h u (List.mem_cons_of_mem p hu) v (List.mem_cons_of_mem c hv)

/-- Named entries are matched alike if their values are, against any value of the candidate. -/
theorem matchNamed_congr {l : Listing Term} {es : List (Entry Term)}
    (h : ∀ u ∈ es.map (·.value), ∀ v ∈ l.values, ∀ b, step u v b = step' u v b) (b : Binding) :
    matchNamed step l es b = matchNamed step' l es b := by
  induction es generalizing b with
  | nil => rfl
  | cons e es ih =>
    have hrest := ih fun u hu ↦ h u (List.mem_cons_of_mem e.value hu)
    rw [matchNamed, matchNamed]
    cases hv : l.get? (e.name?.getD "") with
    | none => rfl
    | some v =>
      have hstep := h e.value List.mem_cons_self v (Listing.mem_values_of_get? hv)
      show (step e.value v b).bind _ = (step' e.value v b).bind _
      rw [hstep, funext hrest]

/-- Listings are matched alike if their values are. -/
theorem matchListing_congr {l m : Listing Term}
    (h : ∀ u ∈ l.values, ∀ v ∈ m.values, ∀ b, step u v b = step' u v b) (b : Binding) :
    matchListing step l m b = matchListing step' l m b := by
  have hall : matchAll step (l.entries.map (·.value)) (m.entries.map (·.value)) b =
      matchAll step' (l.entries.map (·.value)) (m.entries.map (·.value)) b :=
    matchAll_congr h b
  rw [matchListing, matchListing, matchNamed_congr h, hall]

/-- Shapes are matched alike if their parts are. -/
theorem matchShape_congr (h : ∀ u ∈ p.parts, ∀ v ∈ c.parts, ∀ b, step u v b = step' u v b)
    (b : Binding) : matchShape step p c b = matchShape step' p c b := by
  rw [matchShape.eq_def, matchShape.eq_def]
  split
  · rfl
  · next ps cs =>
    have hall : matchAll step ps cs b = matchAll step' ps cs b := matchAll_congr h b
    rw [hall]
  · exact matchListing_congr h b
  · next f l _ g m _ =>
    have hlisting : matchListing step l m b = matchListing step' l m b := matchListing_congr h b
    rw [hlisting]
  · next s t s' t' =>
    rw [h s List.mem_cons_self s' List.mem_cons_self]
    refine congrArg _ (funext fun b₁ ↦ h t ?_ t' ?_ b₁)
    · exact List.mem_cons_of_mem s List.mem_cons_self
    · exact List.mem_cons_of_mem s' List.mem_cons_self
  · rfl

end

variable {resolve resolve' : String → Option Term} {names : Set String} {p c : Term}

/-- **Matching depends on the storage only through the names it meets.** -/
theorem matchWithin_congr (hnames : Closed resolve names)
    (hagree : ∀ x ∈ names, resolve x = resolve' x) (hp : ∀ x ∈ p.references, x ∈ names)
    (hc : ∀ x ∈ c.references, x ∈ names) (depth : Nat) (b : Binding) :
    matchWithin resolve depth p c b = matchWithin resolve' depth p c b := by
  -- On the depth: each step asks the storage for a name that is met, on either side, and goes on to
  -- what mentions names that are met.
  induction depth generalizing p c b with
  | zero => rfl
  | succ depth ih =>
    induction p, c using step_cases with
    | hcapture name c => rfl
    | hsame name => rw [matchWithin_same, matchWithin_same]
    | hstored name c hne =>
      have hname : name ∈ names := hp name (Term.mem_references_self name)
      rw [matchWithin_reference hne, matchWithin_reference hne, ← hagree name hname]
      cases hu : resolve name with
      | none => rfl
      | some u => exact congrArg (Except.map _) (ih (hnames name hname u hu) hc b)
    | hfollowed p name hconcrete =>
      have hname : name ∈ names := hc name (Term.mem_references_self name)
      rw [matchWithin_followed hconcrete, matchWithin_followed hconcrete, ← hagree name hname]
      cases hu : resolve name with
      | none => rfl
      | some u => exact ih hp (hnames name hname u hu) b
    | hshape p c hconcrete hreference =>
      rw [matchWithin_shape hconcrete hreference, matchWithin_shape hconcrete hreference]
      refine matchShape_congr (fun u hu v hv b₁ ↦ ih ?_ ?_ b₁) b
      · exact fun x hx ↦ hp x (Term.mem_references_of_part hu hx)
      · exact fun x hx ↦ hc x (Term.mem_references_of_part hv hx)

end Matching

variable {s s' : Storage} {names : Set String} {p c : Term}

/-- **Storages that agree on the names that are mentioned match alike.** -/
theorem Term.matching_congr (hnames : Closed s.resolve names)
    (hagree : ∀ x ∈ names, s.resolve x = s'.resolve x) (hweight : s.weight = s'.weight)
    (hp : ∀ x ∈ p.references, x ∈ names) (hc : ∀ x ∈ c.references, x ∈ names) :
    p.matching s c = p.matching s' c := by
  have hbound : Matching.depthBound s p c = Matching.depthBound s' p c := by
    rw [Matching.depthBound, Matching.depthBound, hweight]
  rw [matching, matching, hbound, Matching.matchWithin_congr hnames hagree hp hc]

end TermRegistry
