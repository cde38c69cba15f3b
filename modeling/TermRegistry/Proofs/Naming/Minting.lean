import TermRegistry.Proofs.Building

/-!
# Names that are minted

A number that is minted is free (`Registry.Keyed.nextNumber_free`): the search for it has as many
tries as there are names, and one more number in reach. It stays free until the entry that it was
minted for is kept, because everything that is built in between mints greater numbers
(`Builds.minted_free`).
-/

namespace TermRegistry

/-! ### Numerals -/

/-- Different numbers have different numerals. -/
theorem repr_injective : Function.Injective Nat.repr := by
  intro m n h
  have hdigits : Nat.toDigits 10 m = Nat.toDigits 10 n := by
    rw [← Nat.toList_repr, ← Nat.toList_repr, h]
  rw [← Nat.ofDigitChars_ten_toDigits (n := m), hdigits, Nat.ofDigitChars_ten_toDigits]

namespace Registry

variable {r : Registry}

/-- Only when all numbers in reach are taken does the search end at one that is. -/
theorem taken_of_firstFree {taken : String → Bool} {tries n : Nat}
    (h : taken (firstFree taken tries n).repr = true) :
    ∀ i ≤ tries, taken (n + i).repr = true := by
  induction tries generalizing n with
  | zero =>
    intro i hi
    rw [Nat.le_zero.1 hi]
    exact h
  | succ tries ih =>
    rw [firstFree] at h
    split at h
    · next htaken =>
      intro i hi
      cases i with
      | zero => exact htaken
      | succ i =>
        rw [← Nat.add_assoc, Nat.add_right_comm]
        exact ih h i (Nat.le_of_succ_le_succ hi)
    · next hfree => exact absurd h hfree

/-- **The names of a namespace are the ones that are taken in it.** The search for a free number
needs no more of a registry. -/
def Keyed (r : Registry) : Prop :=
  ∀ ns name, name ∈ (r.keeper ns).names ↔ r.contains ns name = true

/-- In a coherent registry names and keys go together. -/
theorem Coherent.keyed (h : r.Coherent) : r.Keyed := fun _ _ ↦ h.mem_names_iff

/-- **A number that is minted is free.** There are more numbers in reach than names. -/
theorem Keyed.nextNumber_free (h : r.Keyed) (ns : Namespace) :
    r.contains ns (r.nextNumber ns).repr = false := by
  by_contra hne
  have htaken := taken_of_firstFree (Bool.not_eq_false _ ▸ hne)
  let numerals := (List.range ((r.keeper ns).names.length + 1)).map fun i ↦ (r.counter + i).repr
  have hnodup : numerals.Nodup :=
    List.nodup_range.map fun i j hij ↦ Nat.add_left_cancel (repr_injective hij)
  have hsub : numerals ⊆ (r.keeper ns).names := by
    intro x hx
    obtain ⟨i, hi, rfl⟩ := List.mem_map.1 hx
    exact (h ns _).2 (htaken i (Nat.le_of_lt_succ (List.mem_range.1 hi)))
  have hlength := (List.subperm_of_subset hnodup hsub).length_le
  rw [List.length_map, List.length_range] at hlength
  exact Nat.not_succ_le_self _ hlength

/-- **The numeral of the next number is free.** -/
theorem Coherent.nextNumber_free (h : r.Coherent) (ns : Namespace) :
    r.contains ns (r.nextNumber ns).repr = false :=
  h.keyed.nextNumber_free ns

end Registry

namespace Context

variable {ctx ctx' before after : Context} {ns : Namespace} {name : String}

/-! ### Names that were minted in between -/

/-- **A name was minted** between one context and a later one: it is a number from the counter of
the first one on, and below that of the second one. -/
def Minted (ctx ctx' : Context) (name : String) : Prop :=
  ∃ n, ctx.counter ≤ n ∧ n < ctx'.counter ∧ name = n.repr

/-- A name that was minted stays so between a smaller counter and a greater one. -/
theorem Minted.mono (h : Minted ctx ctx' name) (hbefore : before.counter ≤ ctx.counter)
    (hafter : ctx'.counter ≤ after.counter) : Minted before after name := by
  obtain ⟨n, hn, hn', rfl⟩ := h
  exact ⟨n, Nat.le_trans hbefore hn, Nat.lt_of_lt_of_le hn' hafter, rfl⟩

/-- Forgetting entries does not bring numbers back. -/
@[simp] theorem counter_forget (ctx : Context) (ns : Namespace) (name : String) :
    (ctx.forget ns name).counter = ctx.counter := by
  show (ctx.registry.forget ns name).counter = ctx.registry.counter
  rw [Registry.forget]
  split <;> rfl

end Context

/-- What is undone does not give its numbers back. -/
theorem Progress.counter_undo (p : Progress) (mark : Nat) :
    (p.undo mark).context.counter = p.context.counter := by
  rw [Progress.undo]
  induction p.journal.drop mark with
  | nil => rfl
  | cons e es ih => rw [List.foldr_cons, Context.counter_forget, ih]

/-! ### What is kept on the way -/

/-- Whether what a construction yields is something on its way, not the new entry that it is for. -/
def Built.OnTheWay : Built → Prop
  | .new .. => False
  | _ => True

namespace Builds

variable {ctx ctx' : Context} {ns : Namespace} {t : Term} {name : String}

/-- A construction does not take numbers back. -/
theorem counter_le {b : Built} (h : Builds ctx b ctx') : ctx.counter ≤ ctx'.counter := by
  obtain ⟨js, hgrows⟩ := h.grows
  exact hgrows.counter_le

/-- **Entries that are kept on the way have names that were minted on the way.** -/
theorem contains_or_minted {b : Built} (h : Builds ctx b ctx') (hb : b.OnTheWay)
    (hname : ctx'.contains ns name = true) :
    ctx.contains ns name = true ∨ ctx.Minted ctx' name := by
  induction h with
  | named | numbered => cases hb
  | @made ctx ctx' _ ns' _ _ _ hx _ _ ih =>
    have hcounter : ctx.counter ≤ ctx.nextNumber ns' := ctx.registry.counter_le_nextNumber ns'
    have hminting : ctx.nextNumber ns' + 1 ≤ ctx'.counter := hx.counter_le
    obtain hname | hplace := Context.contains_of_keep hname
    · rw [← (Context.Raised.mint ctx ns').contains_eq]
      refine (ih trivial hname).imp id fun hminted ↦ ?_
      exact hminted.mono (Nat.le_succ_of_le hcounter) (Nat.le_of_eq Context.counter_keep.symm)
    · refine .inr ⟨_, hcounter, ?_, (Prod.mk.inj hplace).2⟩
      rw [Context.counter_keep]
      exact hminting
  | @matchedLater ctx _ _ ns' _ _ _ _ _ _ ih =>
    have hraised := Context.Raised.mint ctx ns'
    rw [← hraised.contains_eq]
    exact (ih trivial hname).imp id fun hminted ↦ hminted.mono hraised.counter_le (Nat.le_refl _)
  | component _ _ _ hraised _ ih =>
    rw [← hraised.contains_eq]
    exact (ih trivial hname).imp id fun hminted ↦ hminted.mono hraised.counter_le (Nat.le_refl _)
  | parameter _ _ hr _ h ihr ih =>
    rcases ih trivial hname with hname | hminted
    · exact (ihr trivial hname).imp id fun hminted ↦ hminted.mono (Nat.le_refl _) h.counter_le
    · exact .inr (hminted.mono hr.counter_le (Nat.le_refl _))
  | entry _ ih | function _ _ ih | definition _ _ ih => exact ih trivial hname
  | _ => exact .inl hname

/-- **A number stays free while the definition that it was minted for is built.** -/
theorem minted_free (hc : ctx.Coherent) {x : Content}
    (h : Builds (ctx.withCounter (ctx.nextNumber ns + 1)) (.content t ns x) ctx') :
    ctx'.contains ns (ctx.nextNumber ns).repr = false := by
  rw [Bool.eq_false_iff]
  intro htaken
  rcases h.contains_or_minted trivial htaken with hbefore | ⟨n, hn, -, heq⟩
  · exact Bool.eq_false_iff.1 (hc.nextNumber_free ns) hbefore
  · exact Nat.not_succ_le_self _ (repr_injective heq ▸ hn)

end Builds

end TermRegistry
