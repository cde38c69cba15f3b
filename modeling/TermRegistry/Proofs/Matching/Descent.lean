import Mathlib.Order.WellFounded
import TermRegistry.Proofs.Matching.Endless

/-!
# Matching comes to an end

Matching replaces a reference, on either side, by the term that is stored for it, so the terms it is
at need not get smaller. What gets smaller are their heights, which count the terms on the way down
through parts and stored terms. Where mentioning is well-founded every term has a height, even over
a storage of infinitely many names (`HeightLE.exists_of_acc`), and each visit that follows from
another one is lower on one side at least (`Matching.Enters.heights`). So no visits follow one
another without an end, and each match has an outcome, which it reaches at some depth and keeps at
every greater one (`Matching.comes_to_an_end`).
-/

namespace TermRegistry

variable {resolve : String → Option Term} {t : Term}

/-! ### Heights -/

namespace HeightLE

/-- Finitely many terms that have heights have a bound on them in common. -/
theorem exists_forall {ts : List Term} (h : ∀ t ∈ ts, ∃ n, HeightLE resolve n t) :
    ∃ n, ∀ t ∈ ts, HeightLE resolve n t := by
  induction ts with
  | nil => exact ⟨0, nofun⟩
  | cons t ts ih =>
    obtain ⟨⟨m, hm⟩, hts⟩ := List.forall_mem_cons.1 h
    obtain ⟨n, hn⟩ := ih hts
    refine ⟨max m n, List.forall_mem_cons.2 ⟨hm.mono (le_max_left m n), fun u hu ↦ ?_⟩⟩
    exact (hn u hu).mono (le_max_right m n)

/-- A term has a height if those do that are stored for its references. -/
theorem exists_of_stored
    (h : ∀ x ∈ t.references, ∀ u, resolve x = some u → ∃ n, HeightLE resolve n u) :
    ∃ n, HeightLE resolve n t := by
  induction t using Term.induction_parts with
  | h t ih =>
    obtain ⟨n, hn⟩ := exists_forall fun v hv ↦
      ih v hv fun x hx ↦ h x (Term.mem_references_of_part hv hx)
    by_cases hstored : ∃ x u, t = .reference x ∧ resolve x = some u
    · obtain ⟨x, u, rfl, hu⟩ := hstored
      obtain ⟨m, hm⟩ := h x (Term.mem_references_self x) u hu
      refine ⟨m + 1, nofun, ?_⟩
      rintro _ v ⟨⟩ hv
      obtain rfl := Option.some.inj (hu.symm.trans hv)
      exact hm
    · exact ⟨n + 1, hn, fun x u ht hu ↦ absurd ⟨x, u, ht, hu⟩ hstored⟩

/-- **Terms have heights** where mentioning is well-founded below their references. -/
theorem exists_of_acc (h : ∀ x ∈ t.references, Acc (Function.swap (Mentions resolve)) x) :
    ∃ n, HeightLE resolve n t := by
  refine exists_of_stored fun x hx ↦ ?_
  have hacc := h x hx
  clear hx
  -- The induction is on the names that are mentioned further down.
  induction hacc with
  | intro x _ ih => exact fun u hu ↦ exists_of_stored fun y hy ↦ ih y ⟨u, hu, hy⟩

end HeightLE

/-- A storage over which mentioning is well-founded is acyclic. -/
theorem Storage.acyclic_of_wellFounded {s : Storage}
    (h : WellFounded (Function.swap (Mentions s.resolve))) : s.Acyclic :=
  fun x hx ↦ h.transGen.irrefl.irrefl x (Relation.transGen_swap.2 hx)

/-! ### The ways of a match -/

namespace Matching

variable {v w : Visit} {k l : Nat}

/-- **Each visit is lower than the one that it follows from**, on one side at least. -/
theorem Enters.heights (h : Enters resolve v w) (hk : HeightLE resolve k v.pattern)
    (hl : HeightLE resolve l v.candidate) :
    ∃ k' l', k' + l' < k + l ∧ HeightLE resolve k' w.pattern ∧
      HeightLE resolve l' w.candidate := by
  obtain ⟨k, rfl⟩ := Nat.exists_eq_succ_of_ne_zero hk.pos.ne'
  obtain ⟨l, rfl⟩ := Nat.exists_eq_succ_of_ne_zero hl.pos.ne'
  cases h with
  | stored hc hu => exact ⟨k, l + 1, by omega, hk.stored hu, hl⟩
  | followed hp hu => exact ⟨k + 1, l, by omega, hk, hl.stored hu⟩
  | @part p c before after d b b' depth hp hc hds hbefore =>
    have hd : d ∈ p.opening c := by
      rw [hds]
      exact List.mem_append_right before List.mem_cons_self
    obtain ⟨hpart, hpart'⟩ := Term.mem_parts_of_opening hd
    exact ⟨k, l, by omega, hk.part hpart, hl.part hpart'⟩

/-- From a visit between terms that have heights, no visits follow one another without an end. -/
theorem acc_enters (hk : HeightLE resolve k v.pattern) (hl : HeightLE resolve l v.candidate) :
    Acc (Function.swap (Enters resolve)) v := by
  induction hn : k + l using Nat.strong_induction_on generalizing v k l with
  | h n ih =>
    refine ⟨v, fun w hw ↦ ?_⟩
    obtain ⟨k', l', hlt, hk', hl'⟩ := hw.heights hk hl
    exact ih (k' + l') (hn ▸ hlt) hk' hl' rfl

/-- **Matching comes to an end** over every storage in which no name leads on through what it
mentions without an end. No visits follow one another for ever; each pattern and candidate have a
depth at which their match has an outcome, whatever is bound before, and the outcome is the same at
every greater depth; and if the storage has finitely many names, the depth that a match is given is
enough. -/
theorem comes_to_an_end (h : WellFounded (Function.swap (Mentions resolve))) :
    WellFounded (Function.swap (Enters resolve)) ∧
    (∀ p c, ∃ depth, ∀ b, matchWithin resolve depth p c b ≠ .error .exhausted ∧
      ∀ depth' ≥ depth, matchWithin resolve depth' p c b = matchWithin resolve depth p c b) ∧
    ∀ s : Storage, s.resolve = resolve → ∀ p c, Term.matching s p c ≠ .error .circular := by
  have hheight (t : Term) : ∃ n, HeightLE resolve n t :=
    HeightLE.exists_of_acc fun x _ ↦ h.apply x
  refine ⟨⟨fun v ↦ ?_⟩, fun p c ↦ ?_, ?_⟩
  · obtain ⟨k, hk⟩ := hheight v.pattern
    obtain ⟨l, hl⟩ := hheight v.candidate
    exact acc_enters hk hl
  · obtain ⟨k, hk⟩ := hheight p
    obtain ⟨l, hl⟩ := hheight c
    refine ⟨k + l, fun b ↦ ?_⟩
    have hends := matchWithin_ne_exhausted_of_heights hk hl (Nat.le_succ _) b
    refine ⟨hends, fun depth' hle ↦ ?_⟩
    exact ((matchWithin_approximates hle p c b).resolve_left hends).symm
  · rintro s rfl p c
    exact Term.matching_ne_circular (Storage.acyclic_of_wellFounded h) p c

/-- What a name stands for: an array of two references to the name without its first character. -/
def shortened (name : String) : Option Term :=
  match name.toList with
  | [] => none
  | _ :: rest => some (.array [.reference (String.ofList rest), .reference (String.ofList rest)])

/-- There are infinitely many names here. Each of them leads on to the shorter ones that it ends in,
and the empty one is not stored. -/
theorem comes_to_an_end_shortened :
    WellFounded (Function.swap (Mentions shortened)) ∧
    ∃ depth, matchWithin shortened depth (.reference "aaaa") (.reference "aaa") {} ≠
      .error .exhausted := by
  have hwf : WellFounded (Function.swap (Mentions shortened)) := by
    refine Subrelation.wf ?_ (measure fun name ↦ name.toList.length).wf
    rintro y x ⟨u, hu, hy⟩
    rw [shortened] at hu
    split at hu
    · cases hu
    · next c rest hname =>
      cases hu
      have hy' : y = String.ofList rest := by
        rcases List.mem_pair.1 hy with rfl | rfl <;> rfl
      show y.toList.length < x.toList.length
      rw [hy', String.toList_ofList, hname]
      exact Nat.lt_succ_self _
  obtain ⟨-, hends, -⟩ := comes_to_an_end hwf
  obtain ⟨depth, hdepth⟩ := hends (.reference "aaaa") (.reference "aaa")
  exact ⟨hwf, depth, (hdepth {}).1⟩

end Matching

end TermRegistry
