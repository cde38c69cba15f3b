import TermRegistry.Proofs.Matching.Relation
import TermRegistry.Proofs.Success

/-!
# Matching decides the relation

`Term.matching` runs from left to right, threads one binding, and stops at the first failure. Over
an acyclic storage in which every reference met in the pattern is stored, it always comes to an
answer, and the answer is the relation `Relates`:

* *soundness* (`Matching.relates_of_matchWithin`): a binding only grows on the way, so what held of
  an intermediate binding holds of the last one, and the last one relates pattern and candidate;
* *completeness* (`Matching.matchWithin_of_relates`): while the binding agrees with an assignment
  that relates them, no step can fail. Notes made for references do not count here, which is why a
  capture must not bear the name of a reference that is met;
* *no other outcome* (`Matching.matchWithin_settles`): the only failure is a mismatch.

`Matching.Stepped` says once what a step can do, and the inductions on the depth go over its cases.
-/

namespace TermRegistry

/-! ### Bindings that grow -/

namespace Binding

variable {b b' b'' : Binding} {name : String} {t : Term}

/-- The second binding **keeps** what the first one binds. -/
def Kept (b b' : Binding) : Prop := ∀ n t, b.get? n = some t → b'.get? n = some t

theorem Kept.refl (b : Binding) : b.Kept b := fun _ _ h ↦ h

/-- What is kept twice is kept. -/
theorem Kept.trans (h : b.Kept b') (h' : b'.Kept b'') : b.Kept b'' :=
  fun n t ht ↦ h' n t (h n t ht)

/-- Noting a reference keeps what is bound, since a name that is bound is left alone. -/
theorem kept_note (b : Binding) (name : String) (t : Term) : b.Kept (b.note name t) := by
  intro n u hu
  rw [get?_note]
  split
  · next hn => rw [← hn, hu, Option.getD_some]
  · exact hu

/-- Binding a name succeeds where it was bound to the same term, or to none. -/
theorem bind?_eq_some : b.bind? name t = some b' ↔
    b.get? name = some t ∧ b' = b ∨ b.get? name = none ∧ b' = b.insert name t := by
  rw [bind?]
  cases hget : b.get? name with
  | none => simp [eq_comm]
  | some u =>
    by_cases hu : u = t
    · simp [hu, eq_comm]
    · simp [hu]

/-- Binding a name keeps what is bound, and binds the name. -/
theorem kept_of_bind? (h : b.bind? name t = some b') : b.Kept b' ∧ b'.get? name = some t := by
  rcases bind?_eq_some.1 h with ⟨hget, rfl⟩ | ⟨hnone, rfl⟩
  · exact ⟨.refl b', hget⟩
  · refine ⟨fun n u hu ↦ ?_, get?_insert_self b name t⟩
    rw [get?_insert_of_ne (fun hn ↦ by rw [hn, hnone] at hu; cases hu), hu]

end Binding

namespace Matching

variable {resolve σ : String → Option Term} {step : Step} {p c : Term} {b b' : Binding}
  {ds : List (Term × Term)} {depth : Nat} {N : Set String}

/-! ### Pairs -/

/-- Matches pairs of terms one after the other. -/
def matchPairs (step : Step) : List (Term × Term) → Binding → Except Stop Binding
  | [], b => .ok b
  | d :: ds, b => do matchPairs step ds (← step d.1 d.2 b)

theorem matchPairs_cons (step : Step) (d : Term × Term) (ds : List (Term × Term)) (b : Binding) :
    matchPairs step (d :: ds) b = (step d.1 d.2 b).bind (matchPairs step ds) :=
  rfl

theorem matchPairs_singleton (step : Step) (d : Term × Term) (b : Binding) :
    matchPairs step [d] b = step d.1 d.2 b := by
  rw [matchPairs_cons]
  cases step d.1 d.2 b <;> rfl

/-- Items are matched pair by pair. -/
theorem matchAll_eq (step : Step) (ps cs : List Term) (b : Binding) :
    matchAll step ps cs b = matchPairs step (ps.zip cs) b := by
  induction ps generalizing cs b with
  | nil => rfl
  | cons p ps ih =>
    cases cs with
    | nil => rfl
    | cons c cs => exact congrArg _ (funext fun b' ↦ ih cs b')

/-- What is missing counts as a mismatch. -/
theorem orMismatch_eq_ok {α : Type} {x : Option α} {a : α} :
    orMismatch x = .ok a ↔ x = some a := by
  cases x with
  | none => exact ⟨nofun, nofun⟩
  | some a => exact ⟨fun h ↦ congrArg _ (Except.ok.inj h), fun h ↦ congrArg _ (Option.some.inj h)⟩

/-- **Named entries match** when what stands under their names does, from left to right. -/
theorem matchNamed_eq_ok {c : Listing Term} {es : List (Entry Term)} :
    matchNamed step c es b = .ok b' ↔
      ∃ ds, c.besideNamed es = some ds ∧ matchPairs step ds b = .ok b' := by
  induction es generalizing b with
  | nil =>
    refine ⟨fun h ↦ ⟨[], rfl, h⟩, ?_⟩
    rintro ⟨ds, hds, h⟩
    cases hds
    exact h
  | cons e es ih =>
    rw [matchNamed]
    -- The look-up of one entry comes before the step for it, in both readings.
    constructor
    · intro h
      obtain ⟨v, hv, h⟩ := bind_eq_ok.1 h
      obtain ⟨b₁, hstep, h⟩ := bind_eq_ok.1 h
      obtain ⟨ds, hds, h⟩ := ih.1 h
      refine ⟨(e.value, v) :: ds, ?_, bind_eq_ok.2 ⟨b₁, hstep, h⟩⟩
      exact Listing.besideNamed_cons_eq_some.2 ⟨v, ds, orMismatch_eq_ok.1 hv, hds, rfl⟩
    · rintro ⟨_, hcons, h⟩
      obtain ⟨v, ds, hv, hds, rfl⟩ := Listing.besideNamed_cons_eq_some.1 hcons
      obtain ⟨b₁, hstep, h⟩ := bind_eq_ok.1 h
      have hrest := bind_eq_ok.2 ⟨b₁, hstep, ih.2 ⟨ds, hds, h⟩⟩
      exact bind_eq_ok.2 ⟨v, orMismatch_eq_ok.2 hv, hrest⟩

/-- No pairs and a mismatch say the same. -/
theorem error_eq_ok_iff {e : Stop} : (.error e : Except Stop Binding) = .ok b' ↔
    ∃ ds, (none : Option (List (Term × Term))) = some ds ∧ matchPairs step ds b = .ok b' := by
  refine ⟨nofun, ?_⟩
  rintro ⟨ds, hds, -⟩
  cases hds

theorem matchPairs_eq_ok_iff (ds : List (Term × Term)) : matchPairs step ds b = .ok b' ↔
    ∃ ds', some ds = some ds' ∧ matchPairs step ds' b = .ok b' := by
  refine ⟨fun h ↦ ⟨ds, rfl, h⟩, ?_⟩
  rintro ⟨ds', hds, h⟩
  cases hds
  exact h

/-- **Listings match** when all that they pair does, from left to right. -/
theorem matchListing_eq_ok {p c : Listing Term} :
    matchListing step p c b = .ok b' ↔
      ∃ ds, p.pairing c = some ds ∧ matchPairs step ds b = .ok b' := by
  rw [matchListing, Listing.pairing]
  split
  · exact error_eq_ok_iff
  · split
    · exact matchPairs_eq_ok_iff []
    · split
      · exact error_eq_ok_iff
      · split
        · exact matchNamed_eq_ok
        · rw [matchAll_eq]
          exact matchPairs_eq_ok_iff _

/-- **Shapes match** when all that they pair does, from left to right. -/
theorem matchShape_eq_ok :
    matchShape step p c b = .ok b' ↔
      ∃ ds, p.pairing c = some ds ∧ matchPairs step ds b = .ok b' := by
  -- Kind by kind, as the two definitions are; different kinds are not paired and do not match.
  rw [matchShape.eq_def]
  split
  · rw [Term.pairing]
    split
    · exact matchPairs_eq_ok_iff []
    · exact error_eq_ok_iff
  · rw [Term.pairing]
    split
    · rw [matchAll_eq]
      exact matchPairs_eq_ok_iff _
    · exact error_eq_ok_iff
  · exact matchListing_eq_ok
  · rw [Term.pairing]
    split
    · exact matchListing_eq_ok
    · exact error_eq_ok_iff
  · next s t s' t' =>
    have hlast (b₁ : Binding) : step t t' b₁ = matchPairs step [(t, t')] b₁ := by
      rw [matchPairs_cons]
      cases step t t' b₁ <;> rfl
    rw [funext hlast]
    exact matchPairs_eq_ok_iff [(s, s'), (t, t')]
  · next htext harray hlisting hcall hrule =>
    rw [Term.pairing]
    · exact error_eq_ok_iff
    all_goals assumption

/-! ### One step -/

/-- **What a step can do** when it succeeds, from one binding to the next. -/
inductive Stepped (resolve : String → Option Term) (step : Step) :
    Term → Term → Binding → Binding → Prop
  /-- A capture is bound. -/
  | bound {name : String} {c : Term} {b b' : Binding} (h : b.bind? name c = some b') :
    Stepped resolve step (.capture name) c b b'
  /-- A reference meets itself and is noted. -/
  | same (name : String) (b : Binding) :
    Stepped resolve step (.reference name) (.reference name) b (b.note name (.reference name))
  /-- What is stored for a reference matches, and the reference is noted. -/
  | stored {name : String} {u c : Term} {b b' : Binding} (hu : resolve name = some u)
    (h : step u c b = .ok b') : Stepped resolve step (.reference name) c b (b'.note name c)
  /-- A reference in the candidate is followed. -/
  | followed {name : String} {p u : Term} {b b' : Binding} (hp : p.isConcrete = true)
    (hu : resolve name = some u) (h : step p u b = .ok b') :
    Stepped resolve step p (.reference name) b b'
  /-- The parts match. -/
  | parts {p c : Term} {ds : List (Term × Term)} {b b' : Binding} (hds : p.pairing c = some ds)
    (h : matchPairs step ds b = .ok b') : Stepped resolve step p c b b'

/-- A reference meets itself and is noted, without being followed. -/
theorem matchWithin_same (resolve : String → Option Term) (depth : Nat) (name : String)
    (b : Binding) : matchWithin resolve (depth + 1) (.reference name) (.reference name) b =
      .ok (b.note name (.reference name)) :=
  if_pos rfl

/-- **A reference in the pattern is followed** to what is stored for it, and noted afterwards. -/
theorem matchWithin_reference {name : String} (hc : c ≠ .reference name) :
    matchWithin resolve (depth + 1) (.reference name) c b =
      match resolve name with
      | some u => (matchWithin resolve depth u c b).map (·.note name c)
      | none => .error (.unresolved name) := by
  refine (if_neg hc).trans ?_
  cases resolve name with
  | none => rfl
  | some u =>
    show (matchWithin resolve depth u c b).bind (fun b₁ ↦ .ok (b₁.note name c)) =
      (matchWithin resolve depth u c b).map (·.note name c)
    cases matchWithin resolve depth u c b <;> rfl

/-- **A reference in the candidate is followed** if the pattern is neither a capture nor a
reference. -/
theorem matchWithin_followed {name : String} (hp : p.isConcrete = true) :
    matchWithin resolve (depth + 1) p (.reference name) b =
      (orMismatch (resolve name)).bind fun u ↦ matchWithin resolve depth p u b := by
  cases p with
  | capture | reference => cases hp
  | _ => rfl

/-- Where neither side is a reference or a capture, the shapes are compared. -/
theorem matchWithin_shape (hp : p.isConcrete = true) (hc : c.reference? = none) :
    matchWithin resolve (depth + 1) p c b = matchShape (matchWithin resolve depth) p c b := by
  cases p with
  | capture | reference => cases hp
  | _ =>
    cases c with
    | reference => cases hc
    | _ => rfl

/-- **Case distinction for a step**: the pattern is a capture, or a reference that meets itself or
something else, or the candidate is a reference, or neither is. -/
theorem step_cases {P : Term → Term → Prop} (hcapture : ∀ name c, P (.capture name) c)
    (hsame : ∀ name, P (.reference name) (.reference name))
    (hstored : ∀ name c, c ≠ .reference name → P (.reference name) c)
    (hfollowed : ∀ p name, p.isConcrete = true → P p (.reference name))
    (hshape : ∀ p c, p.isConcrete = true → c.reference? = none → P p c) (p c : Term) : P p c := by
  have hconcrete : p.isConcrete = true → P p c := by
    intro hp
    cases c with
    | reference name => exact hfollowed p name hp
    | _ => exact hshape p _ hp rfl
  cases p with
  | capture name => exact hcapture name c
  | reference name =>
    by_cases hc : c = .reference name
    · rw [hc]
      exact hsame name
    · exact hstored name c hc
  | _ => exact hconcrete rfl

/-- **A step that succeeds is one of these.** -/
theorem stepped_of_matchWithin (h : matchWithin resolve (depth + 1) p c b = .ok b') :
    Stepped resolve (matchWithin resolve depth) p c b b' := by
  induction p, c using step_cases with
  | hcapture name c => exact .bound (orMismatch_eq_ok.1 h)
  | hsame name =>
    rw [matchWithin_same] at h
    cases h
    exact .same name b
  | hstored name c hc =>
    rw [matchWithin_reference hc] at h
    cases hu : resolve name with
    | none =>
      rw [hu] at h
      cases h
    | some u =>
      rw [hu] at h
      obtain ⟨b₁, hstep, rfl⟩ := map_eq_ok.1 h
      exact .stored hu hstep
  | hfollowed p name hp =>
    rw [matchWithin_followed hp] at h
    obtain ⟨u, hu, hstep⟩ := bind_eq_ok.1 h
    exact .followed hp (orMismatch_eq_ok.1 hu) hstep
  | hshape p c hp hc =>
    rw [matchWithin_shape hp hc] at h
    obtain ⟨ds, hds, hpairs⟩ := matchShape_eq_ok.1 h
    exact .parts hds hpairs

/-! ### Soundness -/

/-- **Matching is sound**: the binding grows, and relates pattern and candidate in the end. -/
theorem relates_of_matchWithin (h : matchWithin resolve depth p c b = .ok b') :
    b.Kept b' ∧ Relates resolve b'.get? p c := by
  induction depth generalizing p c b b' with
  | zero => cases h
  | succ depth ih =>
    -- Pair after pair the binding grows, so what the first pairs relate stays related.
    have hpairs {ds : List (Term × Term)} {b b' : Binding}
        (h : matchPairs (matchWithin resolve depth) ds b = .ok b') :
        b.Kept b' ∧ ∀ d ∈ ds, Relates resolve b'.get? d.1 d.2 := by
      induction ds generalizing b with
      | nil =>
        obtain rfl := Except.ok.inj h
        exact ⟨.refl _, nofun⟩
      | cons d ds ihds =>
        obtain ⟨b₁, hd, hrest⟩ := bind_eq_ok.1 h
        obtain ⟨hkept, hrel⟩ := ih hd
        obtain ⟨hkept', hrels⟩ := ihds hrest
        refine ⟨hkept.trans hkept', fun d' hd' ↦ ?_⟩
        rcases List.mem_cons.1 hd' with rfl | hd'
        · exact hrel.mono hkept'
        · exact hrels d' hd'
    cases stepped_of_matchWithin h with
    | bound hbind =>
      obtain ⟨hkept, hget⟩ := Binding.kept_of_bind? hbind
      exact ⟨hkept, .capture hget⟩
    | same name => exact ⟨Binding.kept_note b name _, .same name⟩
    | @stored name _ _ _ b₁ hu hstep =>
      obtain ⟨hkept, hrel⟩ := ih hstep
      have hnote := Binding.kept_note b₁ name c
      exact ⟨hkept.trans hnote, .stored hu (hrel.mono hnote)⟩
    | followed hp hu hstep =>
      obtain ⟨hkept, hrel⟩ := ih hstep
      exact ⟨hkept, .followed hp hu hrel⟩
    | parts hds hstep =>
      obtain ⟨hkept, hrels⟩ := hpairs hstep
      exact ⟨hkept, .parts hds hrels⟩

/-- A match binds captures of the pattern and references that are met in it, and nothing else. -/
theorem bound_of_matchWithin (h : matchWithin resolve depth p c b = .ok b')
    (hN : Plain resolve N) (hp : ∀ x ∈ p.references, x ∈ N) {n : String}
    (hn : b'.contains n = true) :
    b.contains n = true ∨ n ∈ p.captures ∨ n ∈ N := by
  -- On the depth, for all bindings. Each step binds one name at most, and goes on to parts of the
  -- pattern or to a stored term, whose references are plain again.
  induction depth generalizing p c b b' with
  | zero => cases h
  | succ depth ih =>
    cases stepped_of_matchWithin h with
    | @bound name _ _ _ hbind =>
      rcases Binding.bind?_eq_some.1 hbind with ⟨-, rfl⟩ | ⟨-, rfl⟩
      · exact .inl hn
      · rw [Binding.contains, Binding.get?_insert] at hn
        split at hn
        · next hname => exact .inr (.inl (hname ▸ Term.mem_captures_self n))
        · exact .inl hn
    | same name =>
      rw [Binding.contains, Binding.get?_note] at hn
      split at hn
      · next hname => exact .inr (.inr (hname ▸ hp name (Term.mem_references_self name)))
      · exact .inl hn
    | @stored name u _ _ b₁ hu hstep =>
      have hname : name ∈ N := hp name (Term.mem_references_self name)
      rw [Binding.contains, Binding.get?_note] at hn
      split at hn
      · next heq => exact .inr (.inr (heq ▸ hname))
      · rcases ih hstep (hN.closed name hname u hu) hn with hb | hcap | hin
        · exact .inl hb
        · rw [hN.captures name hname u hu] at hcap
          cases hcap
        · exact .inr (.inr hin)
    | followed _ hu hstep => exact ih hstep hp hn
    | @parts _ _ ds _ _ hds hstep =>
      have hparts (d : Term × Term) (hd : d ∈ ds) : d.1 ∈ p.parts :=
        (Term.mem_parts_of_pairing hds hd).1
      -- Pair after pair: what the binding in between holds was bound before, or by the first pair.
      clear hds h
      induction ds generalizing b with
      | nil =>
        cases hstep
        exact .inl hn
      | cons d ds ihds =>
        obtain ⟨b₁, hd, hrest⟩ := bind_eq_ok.1 hstep
        have hpart : d.1 ∈ p.parts := hparts d List.mem_cons_self
        rcases ihds hrest fun d' hd' ↦ hparts d' (List.mem_cons_of_mem d hd') with hb₁ | hrest
        · rcases ih hd (fun x hx ↦ hp x (Term.mem_references_of_part hpart hx)) hb₁ with
            hb | hcap | hin
          · exact .inl hb
          · exact .inr (.inl (Term.mem_captures_of_part hpart hcap))
          · exact .inr (.inr hin)
        · exact .inr hrest

/-! ### Completeness -/

/-- A binding **agrees** with an assignment on all names but some. -/
def AgreesOff (N : Set String) (σ : String → Option Term) (b : Binding) : Prop :=
  ∀ n t, n ∉ N → b.get? n = some t → σ n = some t

/-- What is noted for one of the names does not disturb the agreement. -/
theorem AgreesOff.note (h : AgreesOff N σ b) {name : String} (hname : name ∈ N) (t : Term) :
    AgreesOff N σ (b.note name t) := by
  intro n u hn hu
  rw [Binding.get?_note] at hu
  split at hu
  · next heq => exact absurd (heq ▸ hname) hn
  · exact h n u hn hu

/-- **Binding a name as the assignment does succeeds**, and the binding agrees with it still. -/
theorem AgreesOff.bind? (h : AgreesOff N σ b) {name : String} (hname : name ∉ N) {t : Term}
    (ht : σ name = some t) : ∃ b', b.bind? name t = some b' ∧ AgreesOff N σ b' := by
  cases hget : b.get? name with
  | none =>
    refine ⟨b.insert name t, Binding.bind?_eq_some.2 (.inr ⟨hget, rfl⟩), fun n u hn hu ↦ ?_⟩
    rw [Binding.get?_insert] at hu
    split at hu
    · next heq => rw [heq, ht, hu]
    · exact h n u hn hu
  | some u =>
    have hu : u = t := Option.some.inj ((h name u hname hget).symm.trans ht)
    exact ⟨b, Binding.bind?_eq_some.2 (.inl ⟨hu ▸ hget, rfl⟩), h⟩

/-- Pairs of which each keeps an invariant match. -/
theorem matchPairs_of_forall {I : Binding → Prop}
    (h : ∀ d ∈ ds, ∀ b, I b → ∃ b', step d.1 d.2 b = .ok b' ∧ I b') (hb : I b) :
    ∃ b', matchPairs step ds b = .ok b' ∧ I b' := by
  induction ds generalizing b with
  | nil => exact ⟨b, rfl, hb⟩
  | cons d ds ih =>
    obtain ⟨b₁, hd, hb₁⟩ := h d List.mem_cons_self b hb
    obtain ⟨b', hrest, hb'⟩ := ih (fun d' hd' ↦ h d' (List.mem_cons_of_mem d hd')) hb₁
    exact ⟨b', bind_eq_ok.2 ⟨b₁, hd, hrest⟩, hb'⟩

/-- Heights and a depth that is enough for them are positive. -/
theorem exists_succ_of_heights {k l : Nat} (hk : HeightLE resolve k p) (hl : HeightLE resolve l c)
    (hdepth : k + l ≤ depth + 1) :
    ∃ k' l' depth', k = k' + 1 ∧ l = l' + 1 ∧ depth = depth' + 1 := by
  have hkpos := hk.pos
  have hlpos := hl.pos
  exact ⟨k - 1, l - 1, depth - 1, by omega, by omega, by omega⟩

/-- **Matching is complete**: what an assignment relates matches from each binding that agrees with
it, and the binding still agrees afterwards. -/
theorem matchWithin_of_relates (h : Relates resolve σ p c) (hN : Plain resolve N)
    (hp : ∀ x ∈ p.references, x ∈ N) (hcaptures : ∀ n ∈ p.captures, n ∉ N) {k l : Nat}
    (hk : HeightLE resolve k p) (hl : HeightLE resolve l c) (hdepth : k + l ≤ depth + 1)
    (hb : AgreesOff N σ b) :
    ∃ b', matchWithin resolve depth p c b = .ok b' ∧ AgreesOff N σ b' := by
  -- On the way in which the terms are related. The depth pays for a step on either side, so the two
  -- heights together bound it.
  induction h generalizing k l depth b with
  | @capture name c h =>
    obtain ⟨k, l, depth, rfl, rfl, rfl⟩ := exists_succ_of_heights hk hl hdepth
    obtain ⟨b', hbind, hb'⟩ := hb.bind? (hcaptures name (Term.mem_captures_self name)) h
    exact ⟨b', orMismatch_eq_ok.2 hbind, hb'⟩
  | same name =>
    obtain ⟨k, l, depth, rfl, rfl, rfl⟩ := exists_succ_of_heights hk hl hdepth
    have hname : name ∈ N := hp name (Term.mem_references_self name)
    exact ⟨_, matchWithin_same resolve depth name b, hb.note hname _⟩
  | @stored name u c hu h ih =>
    obtain ⟨k, l, depth, rfl, rfl, rfl⟩ := exists_succ_of_heights hk hl hdepth
    have hname : name ∈ N := hp name (Term.mem_references_self name)
    -- A reference that meets itself is not followed, though it could be.
    by_cases hc : c = .reference name
    · rw [hc]
      exact ⟨_, matchWithin_same resolve depth name b, hb.note hname _⟩
    · have hnone : ∀ n ∈ u.captures, n ∉ N := by
        rw [hN.captures name hname u hu]
        exact nofun
      have hrest : k + (l + 1) ≤ depth + 1 := by omega
      obtain ⟨b₁, hstep, hb₁⟩ := ih (hN.closed name hname u hu) hnone (hk.stored hu) hl hrest hb
      refine ⟨b₁.note name c, ?_, hb₁.note hname c⟩
      rw [matchWithin_reference hc, hu]
      exact map_eq_ok.2 ⟨b₁, hstep, rfl⟩
  | @followed name p u hconcrete hu h ih =>
    obtain ⟨k, l, depth, rfl, rfl, rfl⟩ := exists_succ_of_heights hk hl hdepth
    have hrest : k + 1 + l ≤ depth + 1 := by omega
    obtain ⟨b', hstep, hb'⟩ := ih hp hcaptures hk (hl.stored hu) hrest hb
    refine ⟨b', ?_, hb'⟩
    rw [matchWithin_followed hconcrete]
    exact bind_eq_ok.2 ⟨u, orMismatch_eq_ok.2 hu, hstep⟩
  | @parts p c ds hds h ih =>
    obtain ⟨k, l, depth, rfl, rfl, rfl⟩ := exists_succ_of_heights hk hl hdepth
    obtain ⟨hconcrete, hcandidate⟩ := Term.isConcrete_of_pairing hds
    have hstep : ∀ d ∈ ds, ∀ b, AgreesOff N σ b →
        ∃ b', matchWithin resolve depth d.1 d.2 b = .ok b' ∧ AgreesOff N σ b' := by
      intro d hd b hb
      obtain ⟨hpart, hpart'⟩ := Term.mem_parts_of_pairing hds hd
      refine ih d hd (fun x hx ↦ hp x (Term.mem_references_of_part hpart hx))
        (fun n hn ↦ hcaptures n (Term.mem_captures_of_part hpart hn)) (hk.part hpart)
        (hl.part hpart') (by omega) hb
    obtain ⟨b', hpairs, hb'⟩ := matchPairs_of_forall hstep hb
    refine ⟨b', ?_, hb'⟩
    rw [matchWithin_shape hconcrete (Term.reference?_of_isConcrete hcandidate)]
    exact matchShape_eq_ok.2 ⟨ds, hds, hpairs⟩

/-! ### No other outcome -/

/-- If a computation fails, then for a reason of some sort. -/
def FailsBy {α : Type} (P : Stop → Prop) (x : Except Stop α) : Prop := ∀ e, x = .error e → P e

/-- A computation that **settles**: if it fails, then by a mismatch. -/
def Settles {α : Type} (x : Except Stop α) : Prop := ∀ e, x = .error e → e = .mismatch

/-- Matching stops because of a mismatch, or of a reference among some names that nothing resolves,
but not for want of depth. -/
def Unstored (resolve : String → Option Term) (N : Set String) : Stop → Prop
  | .mismatch => True
  | .unresolved name => name ∈ N ∧ resolve name = none
  | .exhausted => False

section

variable {P : Stop → Prop}

theorem FailsBy.ok {α : Type} (a : α) : FailsBy P (.ok a : Except Stop α) := nofun

theorem FailsBy.error {α : Type} {e : Stop} (h : P e) : FailsBy P (.error e : Except Stop α) :=
  fun _ he ↦ Except.error.inj he ▸ h

/-- Something missing fails by a mismatch. -/
theorem FailsBy.orMismatch {α : Type} (hP : P .mismatch) (x : Option α) :
    FailsBy P (Matching.orMismatch x) := by
  cases x with
  | none => exact .error hP
  | some a => exact .ok a

/-- What goes on after a success fails for the reasons of either. -/
theorem FailsBy.bind {α β : Type} {x : Except Stop α} {f : α → Except Stop β}
    (hx : FailsBy P x) (hf : ∀ a, FailsBy P (f a)) : FailsBy P (x.bind f) := by
  cases x with
  | error e => exact .error (hx e rfl)
  | ok a => exact hf a

/-- Named entries fail to match for no other reason than their values do, or by a mismatch. -/
theorem matchNamed_failsBy (hP : P .mismatch) {c : Listing Term} {es : List (Entry Term)}
    (h : ∀ e ∈ es, ∀ v ∈ c.values, ∀ b, FailsBy P (step e.value v b)) (b : Binding) :
    FailsBy P (matchNamed step c es b) := by
  induction es generalizing b with
  | nil => exact .ok b
  | cons e es ih =>
    rw [matchNamed]
    cases hget : c.get? (e.name?.getD "") with
    | none => exact .error hP
    | some v =>
      refine (h e List.mem_cons_self v (Listing.mem_values_of_get? hget) b).bind fun b₁ ↦ ?_
      exact ih (fun e' he' ↦ h e' (List.mem_cons_of_mem e he')) b₁

/-- Items fail to match for no other reason than pairs of them do. -/
theorem matchAll_failsBy {ps cs : List Term}
    (h : ∀ p ∈ ps, ∀ c ∈ cs, ∀ b, FailsBy P (step p c b)) (b : Binding) :
    FailsBy P (matchAll step ps cs b) := by
  induction ps generalizing cs b with
  | nil => exact .ok b
  | cons p ps ih =>
    cases cs with
    | nil => exact .ok b
    | cons c cs =>
      refine (h p List.mem_cons_self c List.mem_cons_self b).bind fun b₁ ↦ ?_
      exact ih (fun p' hp' c' hc' ↦
        h p' (List.mem_cons_of_mem p hp') c' (List.mem_cons_of_mem c hc')) b₁

/-- Listings fail to match for no other reason than their values do, or by a mismatch. -/
theorem matchListing_failsBy (hP : P .mismatch) {p c : Listing Term}
    (h : ∀ u ∈ p.values, ∀ v ∈ c.values, ∀ b, FailsBy P (step u v b)) (b : Binding) :
    FailsBy P (matchListing step p c b) := by
  rw [matchListing]
  split
  · exact .error hP
  · split
    · exact .ok b
    · split
      · exact .error hP
      · split
        · exact matchNamed_failsBy hP (fun e he ↦ h e.value (List.mem_map_of_mem he)) b
        · exact matchAll_failsBy h b

/-- Shapes fail to match for no other reason than their parts do, or by a mismatch. -/
theorem matchShape_failsBy (hP : P .mismatch)
    (h : ∀ u ∈ p.parts, ∀ v ∈ c.parts, ∀ b, FailsBy P (step u v b)) (b : Binding) :
    FailsBy P (matchShape step p c b) := by
  rw [matchShape.eq_def]
  split
  · split
    · exact .ok b
    · exact .error hP
  · split
    · exact matchAll_failsBy h b
    · exact .error hP
  · exact matchListing_failsBy hP h b
  · split
    · exact matchListing_failsBy hP h b
    · exact .error hP
  · next s t s' t' =>
    have hsource := h s List.mem_cons_self s' List.mem_cons_self b
    refine hsource.bind fun b₁ ↦ h t ?_ t' ?_ b₁
    · exact List.mem_cons_of_mem s List.mem_cons_self
    · exact List.mem_cons_of_mem s' List.mem_cons_self
  · exact .error hP

end

/-- **Matching comes to an end** if the depth is enough for the heights of pattern and candidate: it
fails by a mismatch, or because a reference met in the pattern is not stored. -/
theorem matchWithin_failsBy (hN : Closed resolve N) (hp : ∀ x ∈ p.references, x ∈ N) {k l : Nat}
    (hk : HeightLE resolve k p) (hl : HeightLE resolve l c) (hdepth : k + l ≤ depth + 1)
    (b : Binding) : FailsBy (Unstored resolve N) (matchWithin resolve depth p c b) := by
  -- On the depth: every step goes down on one side at least, and uses up one of its height.
  induction depth generalizing p c k l b with
  | zero =>
    obtain ⟨k, l, depth, rfl, rfl, hzero⟩ := exists_succ_of_heights hk hl hdepth
    cases hzero
  | succ depth ih =>
    obtain ⟨k, l, -, rfl, rfl, -⟩ := exists_succ_of_heights hk hl hdepth
    induction p, c using step_cases with
    | hcapture name c => exact .orMismatch trivial _
    | hsame name =>
      rw [matchWithin_same]
      exact .ok _
    | hstored name c hc =>
      have hname : name ∈ N := hp name (Term.mem_references_self name)
      rw [matchWithin_reference hc]
      cases hu : resolve name with
      | none => exact .error ⟨hname, hu⟩
      | some u =>
        have hfails := ih (hN name hname u hu) (hk.stored hu) hl (by omega) b
        exact hfails.bind fun b₁ ↦ .ok (b₁.note name c)
    | hfollowed p name hconcrete =>
      rw [matchWithin_followed hconcrete]
      cases hu : resolve name with
      | none => exact .error trivial
      | some u => exact ih hp hk (hl.stored hu) (by omega) b
    | hshape p c hconcrete hc =>
      rw [matchWithin_shape hconcrete hc]
      refine matchShape_failsBy trivial (fun u hu v hv b₁ ↦ ?_) b
      exact ih (fun x hx ↦ hp x (Term.mem_references_of_part hu hx)) (hk.part hu) (hl.part hv)
        (by omega) b₁

/-- **Matching settles** if moreover the references met in the pattern are stored. -/
theorem matchWithin_settles (hN : Closed resolve N) (hstored : ∀ x ∈ N, ∃ u, resolve x = some u)
    (hp : ∀ x ∈ p.references, x ∈ N) {k l : Nat} (hk : HeightLE resolve k p)
    (hl : HeightLE resolve l c) (hdepth : k + l ≤ depth + 1) (b : Binding) :
    Settles (matchWithin resolve depth p c b) := by
  intro e he
  have hunstored := matchWithin_failsBy hN hp hk hl hdepth b e he
  cases e with
  | mismatch => rfl
  | unresolved name =>
    obtain ⟨hname, hnone⟩ := hunstored
    obtain ⟨u, hu⟩ := hstored name hname
    rw [hu] at hnone
    cases hnone
  | exhausted => exact hunstored.elim

end Matching

/-! ### The outcome of a match -/

section

open Matching

variable {s : Storage} {p c : Term} {N : Set String}

/-- A match relates the two terms. -/
theorem Term.exists_relates_of_matching {b : Binding} (h : Term.matching s p c = .ok (some b)) :
    ∃ σ, Relates s.resolve σ p c := by
  rw [Term.matching] at h
  cases hrun : matchWithin s.resolve (depthBound s p c) p c {} with
  | error e =>
    rw [hrun] at h
    cases e <;> cases h
  | ok b₁ => exact ⟨b₁.get?, (relates_of_matchWithin hrun).2⟩

/-- Without captures in the pattern, a match is the relation under any assignment. -/
theorem Term.matching_iff_relates_of_loopFree {σ : String → Option Term} (hlp : s.LoopFree p)
    (hlc : s.LoopFree c) (hN : Plain s.resolve N) (hp : ∀ x ∈ p.references, x ∈ N)
    (hcaptures : p.captures = []) :
    (∃ b, Term.matching s p c = .ok (some b)) ↔ Relates s.resolve σ p c := by
  have hnone {P : String → Prop} : ∀ n ∈ p.captures, P n := by
    rw [hcaptures]
    exact nofun
  constructor
  · rintro ⟨b, hb⟩
    obtain ⟨σ', h⟩ := exists_relates_of_matching hb
    exact h.congr hN hp hnone
  · intro h
    obtain ⟨b, hrun, -⟩ := matchWithin_of_relates h hN hp hnone hlp.heightLE hlc.heightLE
      (heights_within s p c) (b := {}) nofun
    exact ⟨_, by rw [Term.matching, hrun]⟩

/-- Over an acyclic storage this holds of all patterns and candidates. -/
theorem Term.matching_iff_relates {σ : String → Option Term} (hs : s.Acyclic)
    (hN : Plain s.resolve N) (hp : ∀ x ∈ p.references, x ∈ N) (hcaptures : p.captures = []) :
    (∃ b, Term.matching s p c = .ok (some b)) ↔ Relates s.resolve σ p c :=
  matching_iff_relates_of_loopFree (hs.loopFree p) (hs.loopFree c) hN hp hcaptures

/-- **Matching is no error** where the references met in the pattern are stored. -/
theorem Term.exists_matching_of_loopFree (hlp : s.LoopFree p) (hlc : s.LoopFree c)
    (hN : Closed s.resolve N) (hstored : ∀ x ∈ N, ∃ u, s.resolve x = some u)
    (hp : ∀ x ∈ p.references, x ∈ N) : ∃ outcome, Term.matching s p c = .ok outcome := by
  rw [Term.matching]
  cases hrun : matchWithin s.resolve (depthBound s p c) p c {} with
  | error e =>
    obtain rfl := matchWithin_settles hN hstored hp hlp.heightLE hlc.heightLE
      (heights_within s p c) {} e hrun
    exact ⟨_, rfl⟩
  | ok b => exact ⟨_, rfl⟩

/-- Over an acyclic storage this holds of all candidates. -/
theorem Term.exists_matching (hs : s.Acyclic) (hN : Closed s.resolve N)
    (hstored : ∀ x ∈ N, ∃ u, s.resolve x = some u) (hp : ∀ x ∈ p.references, x ∈ N) (c : Term) :
    ∃ outcome, Term.matching s p c = .ok outcome :=
  exists_matching_of_loopFree (hs.loopFree p) (hs.loopFree c) hN hstored hp

end

open Matching in
/-- **Matching decides the relation.** Over an acyclic storage of terms without captures, take a
pattern whose references, and those met from them, are all stored, and whose captures bear names
that are not empty and are not met as references. Matching it against any candidate is never an
error. It is a match just when some assignment relates the two; then the binding holds the whole
candidate, assigns to the captures of the pattern what every such assignment does, and binds only
references besides. -/
theorem Term.matching_decides (s : Storage) (p c : Term) (hs : s.Acyclic)
    (hfree : ∀ x u, s.resolve x = some u → u.captures = [])
    (hstored : ∀ x, Reaches s.resolve p x → ∃ u, s.resolve x = some u)
    (hcaptures : ∀ n ∈ p.captures, n ≠ "" ∧ ¬ Reaches s.resolve p n) :
    ∃ outcome, Term.matching s p c = .ok outcome ∧
      (outcome.isSome = true ↔ ∃ σ, Relates s.resolve σ p c) ∧
      ∀ b, outcome = some b →
        b.whole? = some c ∧
        (∀ σ, Relates s.resolve σ p c ↔ ∀ n ∈ p.captures, σ n = b.get? n) ∧
        ∀ n, b.contains n = true → n = "" ∨ n ∈ p.captures ∨ Reaches s.resolve p n := by
  have hN : Plain s.resolve {x | Reaches s.resolve p x} :=
    ⟨Reaches.closed s.resolve p, fun x _ u hu ↦ hfree x u hu⟩
  have hp : ∀ x ∈ p.references, x ∈ {x | Reaches s.resolve p x} := fun x hx ↦ .of_mem hx
  have hk := hs.heightLE p
  have hl := hs.heightLE c
  have hdepth := heights_within s p c
  -- What an assignment relates is matched, with a binding that agrees with it on the captures.
  have hcomplete (σ : String → Option Term) (h : Relates s.resolve σ p c) :=
    matchWithin_of_relates h hN hp (fun n hn ↦ (hcaptures n hn).2) hk hl hdepth
      (b := {}) nofun
  rw [Term.matching]
  cases hrun : matchWithin s.resolve (depthBound s p c) p c {} with
  | error e =>
    -- No match, so by completeness nothing relates the two.
    obtain rfl := matchWithin_settles hN.closed hstored hp hk hl hdepth {} e hrun
    refine ⟨none, rfl, ⟨nofun, ?_⟩, nofun⟩
    rintro ⟨σ, hσ⟩
    obtain ⟨b, hb, -⟩ := hcomplete σ hσ
    rw [hrun] at hb
    cases hb
  | ok b =>
    -- A match, whose binding relates the two.
    obtain ⟨-, hrel⟩ := relates_of_matchWithin hrun
    refine ⟨_, rfl, ⟨fun _ ↦ ⟨b.get?, hrel⟩, fun _ ↦ rfl⟩, fun whole hwhole ↦ ?_⟩
    obtain rfl := Option.some.inj hwhole
    have hget (n : String) (hn : n ∈ p.captures) :
        (b.insert Binding.wholeName c).get? n = b.get? n :=
      Binding.get?_insert_of_ne (hcaptures n hn).1
    refine ⟨Binding.get?_insert_self b _ c, fun σ ↦ ⟨fun hσ n hn ↦ ?_, fun hσ ↦ ?_⟩, ?_⟩
    · obtain ⟨b', hb', hagrees⟩ := hcomplete σ hσ
      obtain rfl : b = b' := Except.ok.inj (hrun.symm.trans hb')
      obtain ⟨t, ht⟩ := hrel.assigned hn
      rw [hget n hn, ht]
      exact hagrees n t (hcaptures n hn).2 ht
    · exact hrel.congr hN hp fun n hn ↦ ((hσ n hn).trans (hget n hn)).symm
    · intro n hn
      rw [Binding.contains, Binding.get?_insert] at hn
      split at hn
      · next heq => exact .inl heq
      · rcases bound_of_matchWithin hrun hN hp hn with hnone | hbound
        · cases hnone
        · exact .inr hbound

/-- A capture beside a chain of references, of which the candidate spells the second one. -/
theorem Term.matching_decides_chain :
    ∃ b, Term.matching (.ofList [("x", .reference "y"), ("y", .text "1")])
        (.array [.capture "n", .reference "x"]) (.array [.text "2", .reference "y"]) =
          .ok (some b) ∧
      b.get? "n" = some (.text "2") := by
  let s : Storage := .ofList [("x", .reference "y"), ("y", .text "1")]
  have hs : s.Acyclic := .of_rank (fun x ↦ if x = "x" then 1 else 0) (by decide)
  have hN : Closed s.resolve {x | x ∈ ["x", "y"]} := s.closed_of_entries (by decide)
  have hreaches (x : String) (hx : Reaches s.resolve (.array [.capture "n", .reference "x"]) x) :
      x ∈ ["x", "y"] :=
    hx.mem_of_closed hN (by decide)
  obtain ⟨outcome, hrun, hmatch, hbound⟩ := Term.matching_decides s
    (.array [.capture "n", .reference "x"]) (.array [.text "2", .reference "y"]) hs
    (fun x u hu ↦ (by decide : ∀ e ∈ s.entries, e.2.captures = []) _ (s.mem_of_resolve hu))
    (fun x hx ↦ Option.isSome_iff_exists.1
      ((by decide : ∀ x ∈ ["x", "y"], (s.resolve x).isSome = true) x (hreaches x hx)))
    (fun n hn ↦ by
      obtain rfl := List.mem_singleton.1 hn
      exact ⟨by decide, fun hx ↦ absurd (hreaches "n" hx) (by decide)⟩)
  -- The relation, spelled out: the capture takes the text, and `x` is followed to `y`.
  have hrel : Relates s.resolve (fun _ ↦ some (.text "2"))
      (.array [.capture "n", .reference "x"]) (.array [.text "2", .reference "y"]) := by
    have hds : (Term.array [.capture "n", .reference "x"]).pairing
        (.array [.text "2", .reference "y"]) =
          some [(.capture "n", .text "2"), (.reference "x", .reference "y")] := rfl
    refine .parts hds fun d hd ↦ ?_
    rcases List.mem_cons.1 hd with rfl | hd
    · exact .capture rfl
    · obtain rfl := List.mem_singleton.1 hd
      exact .stored rfl (.same "y")
  obtain ⟨b, rfl⟩ := Option.isSome_iff_exists.1 (hmatch.2 ⟨_, hrel⟩)
  obtain ⟨-, hget, -⟩ := hbound b rfl
  exact ⟨b, hrun, ((hget _).1 hrel "n" (by decide)).symm⟩

end TermRegistry
