import TermRegistry.Proofs.Matching.Opening
import TermRegistry.Proofs.Matching.Termination

/-!
# Matches without an end

`Term.matching` stops at a depth that is reckoned from the sizes of the pattern, the candidate and
the storage. Over an acyclic storage it is never reached. Here it is shown to be right over every
storage: a match that reaches it would reach any depth, because it has come back to a pair of terms
that it was at before (`Term.matching_circular_iff`).

That a pair comes back is not enough for this. In between, captures may have been bound, and the
second time one of them might not agree with what it meets, and end the match. But what lies between
the two visits has succeeded once, so it succeeds with any bindings on top of those it has made
itself, and adds nothing to them (`matchWithin_again`). So the way from one visit to the other can
be gone again with the bindings of the second visit (`Enters.replay`), and again.

**Design.** A visit is a pattern, a candidate and the binding that matching comes to them with, and
`Enters` says which visit can follow from which, whatever the depth. The depth comes in only where
it decreases (`exists_enters_of_exhausts`) and where it is put back (`Enters.exhausts`).
-/

namespace TermRegistry

/-! ### How many terms can be met -/

namespace Term

/-- The terms that can be met from a term over a storage: those exposed in it, and in what is
stored. -/
def met (s : Storage) (t : Term) : List Term :=
  t.exposed ++ s.entries.flatMap fun e ↦ e.2.exposed

variable {s : Storage} {t u v : Term} {name : String}

/-- **The parts of a term together are smaller than it.** -/
theorem sum_size_parts_lt (t : Term) : (t.parts.map size).sum < t.size := by
  have hentries (es : List (Entry Term)) :
      ((es.map (·.value)).map size).sum = sizeEntries es := by
    rw [sizeEntries_eq, List.map_map]
    rfl
  cases t with
  | array items =>
    rw [parts, size, sizeAll_eq]
    exact Nat.lt_succ_self _
  | listing l =>
    rw [parts, Listing.values, hentries, size]
    exact Nat.lt_succ_self _
  | call name l internal =>
    rw [parts, Listing.values, hentries]
    cases internal <;> rw [size] <;> omega
  | rule source target =>
    rw [parts, List.map_cons, List.map_cons, List.map_nil, List.sum_cons, List.sum_cons,
      List.sum_nil, size]
    omega
  | text | reference | capture => exact Nat.zero_lt_one

/-- No more terms are exposed than a term is large. -/
theorem length_exposed_le (t : Term) : t.exposed.length ≤ t.size := by
  induction t using induction_parts with
  | h t ih =>
    have hle : (t.parts.map (List.length ∘ exposed)).sum ≤ (t.parts.map size).sum :=
      List.sum_le_sum ih
    have hlt := t.sum_size_parts_lt
    rw [exposed_eq, List.length_cons, List.length_flatMap]
    exact hle.trans_lt hlt

/-- No more terms can be met than the term and the storage are large. -/
theorem length_met_le (s : Storage) (t : Term) : (t.met s).length ≤ t.size + s.weight := by
  have hstored (entries : List (String × Term)) :
      (entries.flatMap fun e ↦ e.2.exposed).length ≤ Storage.weightOf entries := by
    induction entries with
    | nil => exact Nat.le_refl 0
    | cons e es ih =>
      rw [List.flatMap_cons, List.length_append]
      exact Nat.add_le_add e.2.length_exposed_le ih
  rw [met, List.length_append, s.weight_eq]
  exact Nat.add_le_add t.length_exposed_le (hstored s.entries)

/-- The parts of what is exposed are exposed. -/
theorem exposed_part (hu : u ∈ t.exposed) (hv : v ∈ u.parts) : v ∈ t.exposed := by
  induction t using induction_parts with
  | h t ih =>
    rcases mem_exposed.1 hu with rfl | ⟨w, hw, hu⟩
    · exact mem_exposed_of_part hv (mem_exposed.2 (.inl rfl))
    · exact mem_exposed_of_part hw (ih w hw hu)

/-- The parts of what can be met can be met. -/
theorem met_part (hu : u ∈ t.met s) (hv : v ∈ u.parts) : v ∈ t.met s := by
  rcases List.mem_append.1 hu with hu | hu
  · exact List.mem_append_left _ (exposed_part hu hv)
  · obtain ⟨e, he, hu⟩ := List.mem_flatMap.1 hu
    exact List.mem_append_right _ (List.mem_flatMap.2 ⟨e, he, exposed_part hu hv⟩)

/-- So can all that is stored. -/
theorem met_stored (hu : s.resolve name = some u) : u ∈ t.met s :=
  List.mem_append_right _
    (List.mem_flatMap.2 ⟨_, s.mem_of_resolve hu, mem_exposed.2 (.inl rfl)⟩)

theorem met_self (s : Storage) (t : Term) : t ∈ t.met s :=
  List.mem_append_left _ (mem_exposed.2 (.inl rfl))

end Term

namespace Matching

variable {resolve : String → Option Term} {depth depth' : Nat} {p c : Term} {b b' b'' : Binding}
  {ds : List (Term × Term)}

/-! ### Going over it again -/

/-- What is bound already is not bound anew. -/
theorem note_of_get? {name : String} {t u : Term} (h : b.get? name = some u) :
    b.note name t = b := by
  rw [Binding.note, Binding.contains, h]
  rfl

/-- A name is bound once it has been noted. -/
theorem exists_get?_note (b : Binding) (name : String) (t : Term) :
    ∃ u, (b.note name t).get? name = some u :=
  ⟨_, (b.get?_note name name t).trans (if_pos rfl)⟩

/-- Pairs that keep what is bound and match again one by one do so one after the other. -/
theorem matchPairs_again {step : Step}
    (hkept : ∀ d ∈ ds, ∀ b b', step d.1 d.2 b = .ok b' → b.Kept b')
    (hagain : ∀ d ∈ ds, ∀ b b' b'', step d.1 d.2 b = .ok b' → b'.Kept b'' →
      step d.1 d.2 b'' = .ok b'')
    (h : matchPairs step ds b = .ok b') :
    b.Kept b' ∧ ∀ b'', b'.Kept b'' → matchPairs step ds b'' = .ok b'' := by
  induction ds generalizing b with
  | nil =>
    obtain rfl := Except.ok.inj h
    exact ⟨.refl _, fun _ _ ↦ rfl⟩
  | cons d ds ih =>
    obtain ⟨b₁, hd, hrest⟩ := bind_eq_ok.1 h
    obtain ⟨hkept', hagain'⟩ := ih (fun d' hd' ↦ hkept d' (List.mem_cons_of_mem d hd'))
      (fun d' hd' ↦ hagain d' (List.mem_cons_of_mem d hd')) hrest
    refine ⟨(hkept d List.mem_cons_self b b₁ hd).trans hkept', fun b'' hb'' ↦ ?_⟩
    have hfirst := hagain d List.mem_cons_self b b₁ b'' hd (hkept'.trans hb'')
    exact bind_eq_ok.2 ⟨b'', hfirst, hagain' b'' hb''⟩

/-- **A match succeeds again** with any bindings on top of those it has made, and leaves them as
they are. -/
theorem matchWithin_again (h : matchWithin resolve depth p c b = .ok b') (hb : b'.Kept b'') :
    matchWithin resolve depth p c b'' = .ok b'' := by
  -- On the depth, for all bindings: what each step binds or notes is bound already.
  induction depth generalizing p c b b' b'' with
  | zero => cases h
  | succ depth ih =>
    induction p, c using step_cases with
    | hcapture name c =>
      have hbound := hb name c (Binding.kept_of_bind? (orMismatch_eq_ok.1 h)).2
      exact orMismatch_eq_ok.2 (Binding.bind?_eq_some.2 (.inl ⟨hbound, rfl⟩))
    | hsame name =>
      rw [matchWithin_same] at h ⊢
      cases h
      obtain ⟨u, hu⟩ := exists_get?_note b name (.reference name)
      rw [note_of_get? (hb name u hu)]
    | hstored name c hc =>
      rw [matchWithin_reference hc] at h ⊢
      cases hu : resolve name with
      | none =>
        rw [hu] at h
        cases h
      | some u =>
        rw [hu] at h
        obtain ⟨b₁, hstep, rfl⟩ := map_eq_ok.1 h
        obtain ⟨t, ht⟩ := exists_get?_note b₁ name c
        exact map_eq_ok.2 ⟨b'', ih hstep ((Binding.kept_note b₁ name c).trans hb),
          note_of_get? (hb name t ht)⟩
    | hfollowed p name hp =>
      rw [matchWithin_followed hp] at h ⊢
      obtain ⟨u, hu, hstep⟩ := bind_eq_ok.1 h
      exact bind_eq_ok.2 ⟨u, hu, ih hstep hb⟩
    | hshape p c hp hc =>
      rw [matchWithin_shape hp hc, matchShape_eq_ok] at h ⊢
      obtain ⟨ds, hds, hpairs⟩ := h
      refine ⟨ds, hds, (matchPairs_again (fun d _ b b' hd ↦ ?_) (fun d _ b b' b'' hd ↦ ?_)
        hpairs).2 b'' hb⟩
      · exact (relates_of_matchWithin hd).1
      · exact ih hd

/-- Pairs that match keep what is bound, and match again. -/
theorem matchPairs_within (h : matchPairs (matchWithin resolve depth) ds b = .ok b') :
    b.Kept b' ∧ ∀ b'', b'.Kept b'' → matchPairs (matchWithin resolve depth) ds b'' = .ok b'' :=
  matchPairs_again (fun _ _ _ _ hd ↦ (relates_of_matchWithin hd).1)
    (fun _ _ _ _ _ hd ↦ matchWithin_again hd) h

/-! ### Visits -/

/-- **A visit**: the terms that matching is at, and the binding it has come with. -/
structure Visit where
  pattern : Term
  candidate : Term
  binding : Binding

/-- The pair of terms of a visit. -/
def Visit.pair (v : Visit) : Term × Term := (v.pattern, v.candidate)

/-- A visit for which a depth is not enough. -/
def Visit.Exhausts (resolve : String → Option Term) (depth : Nat) (v : Visit) : Prop :=
  matchWithin resolve depth v.pattern v.candidate v.binding = .error .exhausted

/-- A visit for which no depth is enough. -/
def Visit.Endless (resolve : String → Option Term) (v : Visit) : Prop :=
  ∀ depth, v.Exhausts resolve depth

/-- **Which visit can follow** from which: from a reference to what is stored for it, on either
side, or to a pair of the parts once all pairs in front of it have matched. -/
inductive Enters (resolve : String → Option Term) : Visit → Visit → Prop
  | stored {name : String} {u c : Term} {b : Binding} (hc : c ≠ .reference name)
    (hu : resolve name = some u) : Enters resolve ⟨.reference name, c, b⟩ ⟨u, c, b⟩
  | followed {name : String} {p u : Term} {b : Binding} (hp : p.isConcrete = true)
    (hu : resolve name = some u) : Enters resolve ⟨p, .reference name, b⟩ ⟨p, u, b⟩
  | part {p c : Term} {before after : List (Term × Term)} {d : Term × Term} {b b' : Binding}
    {depth : Nat} (hp : p.isConcrete = true) (hc : c.reference? = none)
    (hds : p.opening c = before ++ d :: after)
    (h : matchPairs (matchWithin resolve depth) before b = .ok b') :
    Enters resolve ⟨p, c, b⟩ ⟨d.1, d.2, b'⟩

variable {v w : Visit}

/-- A smaller depth is not enough either. -/
theorem Visit.Exhausts.mono (h : v.Exhausts resolve depth') (hle : depth ≤ depth') :
    v.Exhausts resolve depth := by
  rcases matchWithin_approximates hle v.pattern v.candidate v.binding with hexhausted | heq
  · exact hexhausted
  · exact heq.trans h

/-- Pairs may be matched in two goes. -/
theorem matchPairs_append (step : Step) (ds es : List (Term × Term)) (b : Binding) :
    matchPairs step (ds ++ es) b = (matchPairs step ds b).bind (matchPairs step es) := by
  induction ds generalizing b with
  | nil => rfl
  | cons d ds ih =>
    rw [List.cons_append, matchPairs_cons, matchPairs_cons, funext ih]
    cases step d.1 d.2 b <;> rfl

/-- Pairs that are matched with more depth come out the same, or ran out before. -/
theorem matchPairs_approximates {step step' : Step}
    (h : ∀ u v b, Approximates (step u v b) (step' u v b)) (ds : List (Term × Term))
    (b : Binding) : Approximates (matchPairs step ds b) (matchPairs step' ds b) := by
  induction ds generalizing b with
  | nil => exact .refl _
  | cons d ds ih => exact (h d.1 d.2 b).bind ih

/-- Pairs fail at one of them, once all in front of it have matched. -/
theorem exists_split_of_matchPairs {step : Step} {e : Stop}
    (h : matchPairs step ds b = .error e) :
    ∃ before d after b', ds = before ++ d :: after ∧ matchPairs step before b = .ok b' ∧
      step d.1 d.2 b' = .error e := by
  induction ds generalizing b with
  | nil => cases h
  | cons d ds ih =>
    rw [matchPairs_cons] at h
    cases hd : step d.1 d.2 b with
    | error e' =>
      rw [hd] at h
      cases h
      exact ⟨[], d, ds, b, rfl, rfl, hd⟩
    | ok b₁ =>
      rw [hd] at h
      obtain ⟨before, d', after, b', rfl, hbefore, hd'⟩ := ih h
      exact ⟨d :: before, d', after, b', rfl, bind_eq_ok.2 ⟨b₁, hd, hbefore⟩, hd'⟩

/-- **If a depth is not enough** for a visit, then one less is not enough for a visit that follows
from it. -/
theorem exists_enters_of_exhausts (h : v.Exhausts resolve (depth + 1)) :
    ∃ w, Enters resolve v w ∧ w.Exhausts resolve depth := by
  obtain ⟨p, c, b⟩ := v
  rw [Visit.Exhausts] at h
  dsimp only at h
  -- Captures and references that meet themselves come to an end at once. In the other cases the
  -- failure is that of the step, one level down.
  induction p, c using step_cases with
  | hcapture name c =>
    have hbind : orMismatch (b.bind? name c) = .error .exhausted := h
    cases hc : b.bind? name c <;> rw [hc] at hbind <;> cases hbind
  | hsame name =>
    rw [matchWithin_same] at h
    cases h
  | hstored name c hc =>
    rw [matchWithin_reference hc] at h
    cases hu : resolve name with
    | none =>
      rw [hu] at h
      cases h
    | some u =>
      rw [hu] at h
      dsimp only at h
      refine ⟨_, .stored hc hu, ?_⟩
      cases hrun : matchWithin resolve depth u c b with
      | ok b₁ =>
        rw [hrun] at h
        cases h
      | error e =>
        rw [hrun] at h
        cases h
        exact hrun
  | hfollowed p name hp =>
    rw [matchWithin_followed hp] at h
    cases hu : resolve name with
    | none =>
      rw [hu] at h
      cases h
    | some u =>
      rw [hu] at h
      exact ⟨_, .followed hp hu, h⟩
  | hshape p c hp hc =>
    rw [matchWithin_shape hp hc, matchShape_opening] at h
    cases hpairs : matchPairs (matchWithin resolve depth) (p.opening c) b with
    | ok b₁ =>
      rw [hpairs] at h
      have hclosing : closing (p.pairing c) b₁ = .error .exhausted := h
      rw [closing] at hclosing
      cases hds : p.pairing c <;> rw [hds] at hclosing <;> cases hclosing
    | error e =>
      rw [hpairs] at h
      cases h
      obtain ⟨before, d, after, b', hds, hbefore, hd⟩ := exists_split_of_matchPairs hpairs
      exact ⟨_, .part hp hc hds hbefore, hd⟩

namespace Enters

/-- If a depth is not enough for a visit that follows, then one more is not enough. -/
theorem exhausts (h : Enters resolve v w) (hw : w.Exhausts resolve depth) :
    v.Exhausts resolve (depth + 1) := by
  cases h with
  | @stored name u c b hc hu =>
    have hrun : matchWithin resolve depth u c b = .error .exhausted := hw
    show matchWithin resolve (depth + 1) (.reference name) c b = _
    rw [matchWithin_reference hc, hu]
    dsimp only
    rw [hrun]
    rfl
  | @followed name p u b hp hu =>
    show matchWithin resolve (depth + 1) p (.reference name) b = _
    rw [matchWithin_followed hp, hu]
    exact hw
  | @part p c before after d b b' depth' hp hc hds hbefore =>
    show matchWithin resolve (depth + 1) p c b = _
    rw [matchWithin_shape hp hc, matchShape_opening, hds, matchPairs_append]
    -- What is in front has matched at some depth, so here it does, or this depth is not enough.
    have hfront : matchPairs (matchWithin resolve depth) before b = .error .exhausted ∨
        matchPairs (matchWithin resolve depth) before b = .ok b' := by
      have happrox {k : Nat} (hle : k ≤ max depth depth') :
          Approximates (matchPairs (matchWithin resolve k) before b)
            (matchPairs (matchWithin resolve (max depth depth')) before b) :=
        matchPairs_approximates (matchWithin_approximates hle) before b
      rcases happrox (le_max_left depth depth') with hexhausted | heq
      · exact .inl hexhausted
      · rcases happrox (le_max_right depth depth') with hexhausted | heq'
        · rw [hbefore] at hexhausted
          cases hexhausted
        · exact .inr (heq.trans (heq'.symm.trans hbefore))
    rcases hfront with hexhausted | hok
    · rw [hexhausted]
      rfl
    · have hrun : matchWithin resolve depth d.1 d.2 b' = .error .exhausted := hw
      rw [hok]
      show ((matchPairs (matchWithin resolve depth) (d :: after) b').bind _) = _
      rw [matchPairs_cons, hrun]
      rfl

/-- Bindings are kept from one visit to the next. -/
theorem kept (h : Enters resolve v w) : v.binding.Kept w.binding := by
  cases h with
  | stored | followed => exact .refl _
  | part hp hc hds hbefore => exact (matchPairs_within hbefore).1

/-- **A visit can be entered again** from the same terms, with more bindings. -/
theorem replay (h : Enters resolve v w) (hb : w.binding.Kept b) :
    Enters resolve ⟨v.pattern, v.candidate, b⟩ ⟨w.pattern, w.candidate, b⟩ := by
  cases h with
  | stored hc hu => exact .stored hc hu
  | followed hp hu => exact .followed hp hu
  | part hp hc hds hbefore => exact .part hp hc hds ((matchPairs_within hbefore).2 b hb)

end Enters

/-! ### Loops -/

/-- The visits that follow from one another, in one step or more. -/
abbrev Leads (resolve : String → Option Term) : Visit → Visit → Prop :=
  Relation.TransGen (Enters resolve)

/-- If a depth is not enough for a visit on the way, it is not enough from the start. -/
theorem Leads.exhausts (h : Leads resolve v w) (hw : w.Exhausts resolve depth) :
    v.Exhausts resolve (depth + 1) := by
  induction h using Relation.TransGen.head_induction_on with
  | single h => exact h.exhausts hw
  | head h _ ih => exact (h.exhausts ih).mono (Nat.le_succ _)

/-- Bindings are kept on the way. -/
theorem Leads.kept (h : Leads resolve v w) : v.binding.Kept w.binding := by
  induction h with
  | single h => exact h.kept
  | tail _ h ih => exact ih.trans h.kept

/-- **A way can be gone again** with more bindings than it has come to. -/
theorem Leads.replay (h : Leads resolve v w) (hb : w.binding.Kept b) :
    Leads resolve ⟨v.pattern, v.candidate, b⟩ ⟨w.pattern, w.candidate, b⟩ := by
  induction h using Relation.TransGen.head_induction_on with
  | single h => exact .single (h.replay hb)
  | head h hrest ih => exact .head (h.replay ((Leads.kept hrest).trans hb)) ih

/-- What leads to an endless visit is endless. -/
theorem Leads.endless (h : Leads resolve v w) (hw : w.Endless resolve) : v.Endless resolve :=
  fun depth ↦ (h.exhausts (hw depth)).mono (Nat.le_succ depth)

/-- **What leads back to itself is endless.** -/
theorem endless_of_loop (h : Leads resolve v v) : v.Endless resolve := by
  intro depth
  induction depth with
  | zero => rfl
  | succ depth ih => exact h.exhausts ih

/-- **A depth that is not enough for as many steps as there are pairs** is never enough. Among the
pairs that were visited on the way, one comes back. -/
theorem endless_of_exhausts {pairs : List (Term × Term)}
    (hpairs : ∀ v w, Enters resolve v w → v.pair ∈ pairs → w.pair ∈ pairs)
    {seen : List (Term × Term)} (hseen : ∀ d ∈ seen, ∃ b, Leads resolve ⟨d.1, d.2, b⟩ v)
    (hnodup : seen.Nodup) (hsub : seen ⊆ pairs) (hv : v.pair ∈ pairs)
    (hdepth : pairs.length < seen.length + depth) (h : v.Exhausts resolve depth) :
    v.Endless resolve := by
  induction depth generalizing v seen with
  | zero =>
    -- All pairs have been visited, and more than there are.
    have hlength := (List.subperm_of_subset hnodup hsub).length_le
    omega
  | succ depth ih =>
    -- Either the pair was visited before, and the way from there can be gone again and again, or it
    -- is put with those that were, and the next visit has one less to go.
    by_cases hmem : v.pair ∈ seen
    · obtain ⟨b, hloop⟩ := hseen _ hmem
      exact endless_of_loop (hloop.replay (.refl _))
    · obtain ⟨w, hw, hexhausts⟩ := exists_enters_of_exhausts h
      refine Leads.endless (.single hw) (ih (fun d hd ↦ ?_) (List.nodup_cons.2 ⟨hmem, hnodup⟩)
        (List.cons_subset.2 ⟨hv, hsub⟩) (hpairs v w hw hv) ?_ hexhausts)
      · rcases List.mem_cons.1 hd with rfl | hd
        · exact ⟨v.binding, .single hw⟩
        · obtain ⟨b, hb⟩ := hseen d hd
          exact ⟨b, hb.tail hw⟩
      · rw [List.length_cons]
        omega

/-! ### The bound is right -/

/-- The pairs that can be met in a match. -/
def pairsMet (s : Storage) (p c : Term) : List (Term × Term) := p.met s ×ˢ c.met s

/-- **A visit goes on to pairs that can be met.** -/
theorem pairsMet_of_enters {s : Storage} (h : Enters s.resolve v w)
    (hv : v.pair ∈ pairsMet s p c) : w.pair ∈ pairsMet s p c := by
  obtain ⟨hp, hc⟩ := List.mem_product.1 hv
  refine List.mem_product.2 ?_
  cases h with
  | stored hne hu => exact ⟨Term.met_stored hu, hc⟩
  | followed hconcrete hu => exact ⟨hp, Term.met_stored hu⟩
  | @part _ _ before after d _ _ _ hconcrete href hds hbefore =>
    have hd : d ∈ before ++ d :: after := List.mem_append_right _ List.mem_cons_self
    obtain ⟨hpart, hpart'⟩ := Term.mem_parts_of_opening (hds ▸ hd)
    exact ⟨Term.met_part hp hpart, Term.met_part hc hpart'⟩

/-- There are fewer pairs that can be met than the bound on the depth. -/
theorem length_pairsMet_lt (s : Storage) (p c : Term) :
    (pairsMet s p c).length < depthBound s p c := by
  rw [pairsMet, List.length_product, depthBound]
  exact Nat.lt_succ_of_le (Nat.mul_le_mul (Term.length_met_le s p) (Term.length_met_le s c))

/-- **If the bound on the depth is not enough, no depth is.** -/
theorem exhausted_of_depthBound {s : Storage}
    (h : matchWithin s.resolve (depthBound s p c) p c b = .error .exhausted) (depth : Nat) :
    matchWithin s.resolve depth p c b = .error .exhausted := by
  have hlength := length_pairsMet_lt s p c
  have hendless : Visit.Endless s.resolve ⟨p, c, b⟩ :=
    endless_of_exhausts (fun _ _ ↦ pairsMet_of_enters) (List.forall_mem_nil _)
      List.nodup_nil (List.nil_subset _)
      (List.mem_product.2 ⟨Term.met_self s p, Term.met_self s c⟩)
      (by rw [List.length_nil, Nat.zero_add]; exact hlength) h
  exact hendless depth

/-- **A depth above the bound makes no difference.** -/
theorem matchWithin_of_depthBound_le {s : Storage} (h : depthBound s p c ≤ depth) (b : Binding) :
    matchWithin s.resolve depth p c b = matchWithin s.resolve (depthBound s p c) p c b := by
  rcases matchWithin_approximates h p c b with hexhausted | heq
  · rw [hexhausted, exhausted_of_depthBound hexhausted]
  · exact heq.symm

end Matching

/-- **A match is circular just when it has no end**, at any depth. -/
theorem Term.matching_circular_iff (s : Storage) (p c : Term) :
    Term.matching s p c = .error .circular ↔
      ∀ depth, Matching.matchWithin s.resolve depth p c {} = .error .exhausted := by
  rw [Term.matching]
  constructor
  · intro h
    refine Matching.exhausted_of_depthBound ?_
    generalize Matching.matchWithin s.resolve (Matching.depthBound s p c) p c {} = x at h
    cases x with
    | ok b => cases h
    | error e =>
      cases e with
      | exhausted => rfl
      | mismatch | unresolved => cases h
  · intro h
    rw [h]

end TermRegistry
