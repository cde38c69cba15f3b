import TermRegistry.Proofs.Dedup.Resolution

/-!
# Grounded contexts

What a definition without captures matches is a matter of the terms in a context alone, once every
reference in it leads somewhere and none leads back. Then matching does not fail, and it is decided
by the relation of the two terms.

**The setting** is one of two contexts. In the first one all terms are grounded. The second one has
grown out of it, without changing the meaning of any name that is mentioned, and may hold entries
that nothing else is known about: the terms of new entries have the defaults of parameters in them.
So all that can be said of a definition and an entry is said over the first context.
-/

namespace TermRegistry

namespace Context

variable {ctx made after : Context} {t t' : Term} {N : Set String}

/-! ### Grounded contexts -/

/-- **A term is grounded** in a context: it holds no capture, each listing in it has distinct names
or none at all, and all its references resolve. -/
structure Grounded (ctx : Context) (t : Term) : Prop where
  captureFree : t.hasCapture = false
  tidy : t.IsTidy
  resolved : ∀ x ∈ t.references, (ctx.lookup? x).isSome = true

instance (ctx : Context) (t : Term) : Decidable (ctx.Grounded t) :=
  decidable_of_iff
    (t.hasCapture = false ∧ t.IsTidy ∧ ∀ x ∈ t.references, (ctx.lookup? x).isSome = true)
    ⟨fun ⟨h₁, h₂, h₃⟩ ↦ ⟨h₁, h₂, h₃⟩, fun h ↦ ⟨h.captureFree, h.tidy, h.resolved⟩⟩

/-- **A grounded context**: all its terms are grounded in it, rule sets aside, and its references
are acyclic. -/
structure AllGrounded (ctx : Context) : Prop where
  entries : ∀ k ∈ ctx.entries, k.ns ≠ .ruleSet → ctx.Grounded k.toTerm
  acyclic : ctx.storage.Acyclic

theorem Grounded.reorder (ht : ctx.Grounded t) (h : Reordered t' t) : ctx.Grounded t' where
  captureFree := h.hasCapture_eq.trans ht.captureFree
  tidy := h.isTidy ht.tidy
  resolved x hx := ht.resolved x (h.references_subset hx)

/-- What matching looks at in an entry is grounded, in rule sets too. -/
theorem AllGrounded.entry (hctx : ctx.AllGrounded) (hc : ctx.Coherent) {k : Kept}
    (hk : k ∈ ctx.entries) : k.toTerm.captures = [] ∧ k.toTerm.IsTidy ∧
      ∀ x ∈ k.toTerm.references, (ctx.lookup? x).isSome = true := by
  by_cases hns : k.ns = .ruleSet
  · have hsuits := hc.suits_of_mem_entries hk
    rw [hns] at hsuits
    obtain ⟨s, hs⟩ := Content.eq_rules_of_suits hsuits
    -- A rule set has no parameters, so that nothing but itself is exposed in it.
    have hterm : k.toTerm = s.toTerm := congrArg Content.toTerm hs
    rw [hterm]
    refine ⟨rfl, fun u hu ↦ ?_, nofun⟩
    obtain rfl := List.mem_singleton.1 hu
    exact ⟨.inl nofun, List.nodup_nil⟩
  · have hk := hctx.entries k hk hns
    exact ⟨Term.captures_eq_nil _ hk.captureFree, hk.tidy, hk.resolved⟩

/-- The names that are mentioned in a grounded context are orderly. -/
theorem AllGrounded.orderly (hctx : ctx.AllGrounded) (hc : ctx.Coherent)
    (hmentions : ∀ k ∈ ctx.entries, ∀ x ∈ k.toTerm.references, x ∈ N) :
    Orderly ctx.storage.resolve N where
  closed x _ u hu y hy := by
    obtain ⟨k, hk, rfl⟩ := exists_entry_of_resolve hc hu
    exact hmentions k hk y hy
  captures x _ u hu := by
    obtain ⟨k, hk, rfl⟩ := exists_entry_of_resolve hc hu
    exact (hctx.entry hc hk).1
  tidy x _ u hu := by
    obtain ⟨k, hk, rfl⟩ := exists_entry_of_resolve hc hu
    exact (hctx.entry hc hk).2.1

/-! ### What a grounded term matches -/

/-- The setting: a grounded context, some names that hold all its references, and a context that is
steady over it on them. -/
structure Setting (ctx : Context) (N : Set String) (made : Context) : Prop
    extends Steady ctx N made where
  coherent : ctx.Coherent
  coherent' : made.Coherent
  grounded : ctx.AllGrounded
  mentions' : ∀ k ∈ ctx.entries, ∀ x ∈ k.toTerm.references, x ∈ N

/-- **A context on the way of a construction is one to look at in the setting**, as long as no new
name is mentioned in the end. -/
theorem AllGrounded.setting (hctx : ctx.AllGrounded) (hc : ctx.Coherent)
    {js ks : List (Namespace × String)} (hgrows : ctx.Grows js made) (hrest : made.Grows ks after)
    (hnew : ∀ k ∈ after.entries, ∀ x ∈ k.toTerm.references, x ∉ newNames ctx after) :
    Setting ctx {x | x ∉ newNames ctx after} made where
  toSteady := hc.steady hctx.acyclic hgrows (fun _ hx hmade ↦ hx (newNames_mono hrest hmade))
    fun k hk ↦ hnew k (hrest.mem_entries (hgrows.coherent hc) hk)
  coherent := hc
  coherent' := hgrows.coherent hc
  grounded := hctx
  mentions' k hk := hnew k (hrest.mem_entries (hgrows.coherent hc) (hgrows.mem_entries hc hk))

namespace Setting

theorem orderly (h : Setting ctx N made) : Orderly ctx.storage.resolve N :=
  h.grounded.orderly h.coherent h.mentions'

theorem plain (h : Setting ctx N made) : Plain made.storage.resolve N where
  closed x hx u hu := h.orderly.closed x hx u ((h.agrees x hx).symm.trans hu)
  captures x hx u hu := h.orderly.captures x hx u ((h.agrees x hx).symm.trans hu)

/-- Terms that mention no other names are related alike over both contexts. -/
theorem relates_iff (h : Setting ctx N made) {σ : String → Option Term} {p c : Term}
    (hp : ∀ x ∈ p.references, x ∈ N) (hc : ∀ x ∈ c.references, x ∈ N) :
    Relates made.storage.resolve σ p c ↔ Relates ctx.storage.resolve σ p c :=
  ⟨fun hrel ↦ hrel.congr_resolve h.plain.closed h.agrees hp hc,
    fun hrel ↦ hrel.congr_resolve h.orderly.closed (fun x hx ↦ (h.agrees x hx).symm) hp hc⟩

/-- **A grounded term is matched without an error**, and matches what it is related to over the
grounded context. -/
theorem exists_matching (h : Setting ctx N made) (ht : ctx.Grounded t)
    (htN : ∀ x ∈ t.references, x ∈ N) {c : Term} (hcN : ∀ x ∈ c.references, x ∈ N) :
    ∃ outcome, Term.matching made.storage t c = .ok outcome ∧
      (outcome.isSome = true ↔ Relates ctx.storage.resolve nothing t c) := by
  let M : Set String := {x | x ∈ N ∧ (ctx.lookup? x).isSome = true}
  have hresolve {x : String} (hx : x ∈ M) :
      made.storage.resolve x = (ctx.lookup? x).map Kept.toTerm :=
    (h.agrees x hx.1).trans (storage_resolve h.coherent x)
  have hM : Closed made.storage.resolve M := by
    intro x hx u hu y hy
    refine ⟨h.plain.closed x hx.1 u hu y hy, ?_⟩
    obtain ⟨k, hk, rfl⟩ := exists_entry_of_resolve h.coherent ((h.agrees x hx.1).symm.trans hu)
    exact (h.grounded.entry h.coherent hk).2.2 y hy
  have hstored : ∀ x ∈ M, ∃ u, made.storage.resolve x = some u := by
    intro x hx
    obtain ⟨k, hk⟩ := Option.isSome_iff_exists.1 hx.2
    exact ⟨k.toTerm, by rw [hresolve hx, hk]; rfl⟩
  obtain ⟨outcome, houtcome⟩ := Term.exists_matching h.acyclic hM hstored
    (fun x hx ↦ ⟨htN x hx, ht.resolved x hx⟩) c
  refine ⟨outcome, houtcome, ?_⟩
  rw [← h.relates_iff htN hcN, ← Term.matching_iff_relates h.acyclic h.plain htN
    (Term.captures_eq_nil t ht.captureFree), houtcome, Option.isSome_iff_exists]
  simp only [Except.ok.injEq]

/-- **What a grounded term matches, matches it in turn** just when the two are related both ways
over the grounded context. -/
theorem matches_iff (h : Setting ctx N made) (ht : ctx.Grounded t)
    (htN : ∀ x ∈ t.references, x ∈ N) {c : Term} (hcN : ∀ x ∈ c.references, x ∈ N)
    (hforth : Relates ctx.storage.resolve nothing t c) :
    c.matches made.storage t = true ↔ Relates ctx.storage.resolve nothing c t := by
  have hmatches : c.matches made.storage t = true ↔
      ∃ b, Term.matching made.storage c t = .ok (some b) := by
    rw [Term.matches]
    cases Term.matching made.storage c t with
    | error e => exact ⟨nofun, nofun⟩
    | ok outcome =>
      cases outcome with
      | none => exact ⟨nofun, nofun⟩
      | some b => exact ⟨fun _ ↦ ⟨b, rfl⟩, fun _ ↦ rfl⟩
  -- A stored term that is also matched by the definition has no captures, for they would have to
  -- match each other both ways. So assignments play no part.
  have hcaptures {σ : String → Option Term} (hback : Relates ctx.storage.resolve σ c t) :
      c.captures = [] :=
    hforth.captures_eq_nil_of_mutual hback h.orderly (Term.captures_eq_nil t ht.captureFree)
      ht.tidy htN
  rw [hmatches, ← h.relates_iff hcN htN]
  constructor
  · rintro ⟨b, hb⟩
    obtain ⟨σ, hback⟩ := Term.exists_relates_of_matching hb
    have hnil := hcaptures ((h.relates_iff hcN htN).1 hback)
    exact (Term.matching_iff_relates h.acyclic h.plain hcN hnil).1 ⟨b, hb⟩
  · intro hback
    have hnil := hcaptures ((h.relates_iff hcN htN).1 hback)
    exact (Term.matching_iff_relates h.acyclic h.plain hcN hnil).2 hback

end Setting

end Context

end TermRegistry
