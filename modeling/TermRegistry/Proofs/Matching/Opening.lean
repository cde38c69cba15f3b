import TermRegistry.Proofs.Matching.Correctness

/-!
# What matching goes through before it fails

`Term.pairing` is all or nothing: what has to match in two terms, or nothing at all where some part
of the pattern has no counterpart. Matching finds this out in the course of its work. That a name is
missing in the candidate shows when its turn comes, and by then the entries in front of it have been
matched, or have failed in a way of their own.

The opening of two terms is the list of pairs that are tried one after the other
(`Term.opening`). Matching shapes comes to matching their opening, and a mismatch behind it unless
all is paired (`Matching.matchShape_opening`). This accounts for failures as well as for matches.
-/

namespace TermRegistry

namespace Listing

/-- The values of named entries beside the first values of the same names in a listing, up to the
first name that is missing there. -/
def openingNamed (c : Listing Term) : List (Entry Term) → List (Term × Term)
  | [] => []
  | e :: es =>
    match c.get? (e.name?.getD "") with
    | some v => (e.value, v) :: c.openingNamed es
    | none => []

/-- **The pairs that are tried** in two listings. -/
def opening (p c : Listing Term) : List (Term × Term) :=
  if c.size < p.size then []
  else if p.isNamed != c.isNamed then []
  else if p.isNamed then c.openingNamed p.entries
  else p.values.zip c.values

variable {p c : Listing Term} {es : List (Entry Term)} {d : Term × Term}

/-- What is tried for named entries are their values, and values of the candidate. -/
theorem mem_openingNamed (h : d ∈ c.openingNamed es) :
    d.1 ∈ es.map (·.value) ∧ d.2 ∈ c.values := by
  induction es with
  | nil => cases h
  | cons e es ih =>
    rw [openingNamed] at h
    split at h
    · next v hv =>
      rcases List.mem_cons.1 h with rfl | h
      · exact ⟨List.mem_cons_self, mem_values_of_get? hv⟩
      · exact ⟨List.mem_cons_of_mem _ (ih h).1, (ih h).2⟩
    · cases h

/-- What is tried in listings are their values. -/
theorem mem_opening (h : d ∈ p.opening c) : d.1 ∈ p.values ∧ d.2 ∈ c.values := by
  rw [opening] at h
  split at h
  · cases h
  · split at h
    · cases h
    · split at h
      · exact mem_openingNamed h
      · exact List.of_mem_zip h

end Listing

namespace Term

/-- **The pairs that are tried** when two terms are matched of which neither is a reference or a
capture. -/
def opening : Term → Term → List (Term × Term)
  | array ps, array cs => if Matching.fits ps cs then ps.zip cs else []
  | listing p, listing c => p.opening c
  | call f p _, call g c _ => if f = g then p.opening c else []
  | rule s t, rule s' t' => [(s, s'), (t, t')]
  | _, _ => []

/-- What is tried are parts. -/
theorem mem_parts_of_opening {p c : Term} {d : Term × Term} (h : d ∈ p.opening c) :
    d.1 ∈ p.parts ∧ d.2 ∈ c.parts := by
  rw [opening.eq_def] at h
  split at h
  · split at h
    · exact List.of_mem_zip h
    · cases h
  · exact Listing.mem_opening h
  · split at h
    · exact Listing.mem_opening h
    · cases h
  · rcases List.mem_pair.1 h with rfl | rfl
    · exact ⟨List.mem_cons_self, List.mem_cons_self⟩
    · exact ⟨List.mem_cons_of_mem _ List.mem_cons_self, List.mem_cons_of_mem _ List.mem_cons_self⟩
  · cases h

end Term

namespace Matching

variable {step : Step} {b : Binding}

/-- What is left of a match once all pairs have been tried: a mismatch, unless all is paired. -/
def closing (pairing : Option (List (Term × Term))) (b : Binding) : Except Stop Binding :=
  orMismatch (pairing.map fun _ ↦ b)

/-- Where all is paired, nothing is left. -/
theorem bind_closing_some (ds : List (Term × Term)) (x : Except Stop Binding) :
    x.bind (closing (some ds)) = x := by
  cases x <;> rfl

/-- Named entries are tried up to the first whose name is missing, which is a mismatch. -/
theorem matchNamed_opening (step : Step) (c : Listing Term) (es : List (Entry Term))
    (b : Binding) : matchNamed step c es b =
      (matchPairs step (c.openingNamed es) b).bind (closing (c.besideNamed es)) := by
  induction es generalizing b with
  | nil => rfl
  | cons e es ih =>
    rw [matchNamed, Listing.openingNamed, Listing.besideNamed]
    cases hv : c.get? (e.name?.getD "") with
    | none => rfl
    | some v =>
      have hclosing : closing (some v >>= fun v ↦ do
          return (e.value, v) :: (← c.besideNamed es)) = closing (c.besideNamed es) := by
        cases c.besideNamed es <;> rfl
      show (step e.value v b).bind (matchNamed step c es) = ((step e.value v b).bind _).bind _
      rw [hclosing, funext ih]
      cases step e.value v b <;> rfl

/-- Listings are matched by trying their pairs, and fail after these unless all is paired. -/
theorem matchListing_opening (step : Step) (p c : Listing Term) (b : Binding) :
    matchListing step p c b =
      (matchPairs step (p.opening c) b).bind (closing (p.pairing c)) := by
  rw [matchListing, Listing.opening, Listing.pairing]
  split
  · rfl
  · split
    · next hempty =>
      -- Nothing is tried, whether or not the candidate is named.
      have hnone : (if p.isNamed != c.isNamed then [] else
          if p.isNamed then c.openingNamed p.entries else p.values.zip c.values) = [] := by
        rw [Listing.isNamed, Listing.values, List.isEmpty_iff.1 hempty]
        split
        · rfl
        · rfl
      rw [hnone]
      rfl
    · split
      · rfl
      · split
        · exact matchNamed_opening step c p.entries b
        · rw [matchAll_eq, bind_closing_some]
          rfl

/-- **Matching shapes** is to try their pairs one by one, and then to fail unless all is paired. -/
theorem matchShape_opening (step : Step) (p c : Term) (b : Binding) :
    matchShape step p c b =
      (matchPairs step (p.opening c) b).bind (closing (p.pairing c)) := by
  -- Only for listings can some pairs be tried though not all is paired.
  rw [matchShape.eq_def]
  split
  · rw [Term.pairing, Term.opening]
    · split <;> rfl
    all_goals simp
  · rw [Term.pairing, Term.opening]
    split
    · rw [matchAll_eq, bind_closing_some]
    · rfl
  · exact matchListing_opening step _ _ b
  · rw [Term.pairing, Term.opening]
    split
    · exact matchListing_opening step _ _ b
    · rfl
  · next s t s' t' =>
    rw [Term.pairing, Term.opening, bind_closing_some, matchPairs_cons]
    exact congrArg _ (funext fun b₁ ↦ (matchPairs_singleton step (t, t') b₁).symm)
  · next htext harray hlisting hcall hrule =>
    rw [Term.pairing, Term.opening]
    · rfl
    all_goals assumption

end Matching

end TermRegistry
