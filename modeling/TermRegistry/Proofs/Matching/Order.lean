import TermRegistry.Proofs.Matching.Reflexivity
import TermRegistry.Proofs.Matching.Reordering

/-!
# What the order of named entries decides

Matching works from left to right with one binding for captures and references, and its first
failure ends it. Over any storage at all, also where references lead in circles and captures are
stored, what comes of it is a matter of two questions that do not depend on this order
(`Term.matching_isSome_iff`):

* do the two terms fit, if captures match whatever they meet (`Fits`)?
* do captures of one name meet equal terms (`Consistent`)?

This is so unless a reference gets in the way of a capture of its own name: it is noted where the
capture is to be bound, and if it met another term, then the capture finds that one. So captures and
references have to be untangled (`Untangled`). What is met, by a capture or a reference, is a
question of what matching compares with what (`Compares`): the two terms, what is stored for a
reference on either side, and the parts in the same places. Captures in stored terms are among it.

The first answer stays the same when named entries are reordered, at any depth, in the pattern or in
the candidate. The second one stays the same when the pattern is reordered. It need not when the
candidate is, since terms are equal only if their entries come in the same order. So a pattern whose
captures meet equal terms on both sides or on neither matches both candidates or neither
(`Term.matching_reorder`).

**Design.** There is no bound on the depth of a match here. A run that has an assignment to agree
with either ends well, or runs out of depth or into a reference without a term, but it never comes
to a mismatch (`Matching.carries_matchWithin`). Nor does `Compares` end where matching would, at the
first mismatch: which one that is depends on the order.
-/

namespace TermRegistry

/-! ### What is compared -/

/-- **A pattern fits a candidate** if they match up to what captures stand for. -/
inductive Fits (resolve : String → Option Term) : Term → Term → Prop
  | capture (name : String) (c : Term) : Fits resolve (.capture name) c
  | same (name : String) : Fits resolve (.reference name) (.reference name)
  | stored {name : String} {u c : Term} (hu : resolve name = some u) (h : Fits resolve u c) :
    Fits resolve (.reference name) c
  | followed {name : String} {p u : Term} (hp : p.isConcrete = true) (hu : resolve name = some u)
    (h : Fits resolve p u) : Fits resolve p (.reference name)
  | parts {p c : Term} {ds : List (Term × Term)} (hds : p.pairing c = some ds)
    (h : ∀ d ∈ ds, Fits resolve d.1 d.2) : Fits resolve p c

/-- **What is compared** when a pattern is matched against a candidate, up to what `q` is compared
with `d`: the two terms themselves, what is stored for a reference on either side, and the parts in
the same places. A reference that meets itself is not looked up. -/
inductive Compares (resolve : String → Option Term) (q d : Term) : Term → Term → Prop
  | here : Compares resolve q d q d
  | stored {name : String} {u c : Term} (hc : c ≠ .reference name) (hu : resolve name = some u)
    (h : Compares resolve q d u c) : Compares resolve q d (.reference name) c
  | followed {name : String} {p u : Term} (hp : p.isConcrete = true) (hu : resolve name = some u)
    (h : Compares resolve q d p u) : Compares resolve q d p (.reference name)
  | parts {p c : Term} {ds : List (Term × Term)} {e : Term × Term} (hds : p.pairing c = some ds)
    (he : e ∈ ds) (h : Compares resolve q d e.1 e.2) : Compares resolve q d p c

/-- **What captures meet**: a capture of this name is compared with this term. -/
def Meets (resolve : String → Option Term) (p c : Term) (n : String) (v : Term) : Prop :=
  Compares resolve (.capture n) v p c

/-- **Captures are consistent** if those of one name meet equal terms. -/
def Consistent (resolve : String → Option Term) (p c : Term) : Prop :=
  ∀ n v w, Meets resolve p c n v → Meets resolve p c n w → v = w

/-- **Captures and references are untangled** if no reference is compared with another term than
a capture of its name. -/
def Untangled (resolve : String → Option Term) (p c : Term) : Prop :=
  ∀ n v w, Meets resolve p c n v → Compares resolve (.reference n) w p c → w = v

/-- The captures of a concrete term are those of its parts. -/
theorem Term.captures_of_isConcrete {t : Term} (h : t.isConcrete = true) :
    t.captures = t.parts.flatMap captures := by
  rw [captures, exposed_eq, List.filterMap_cons_none (Option.isNone_iff_eq_none.1
    (Bool.and_eq_true_iff.1 h).2), List.filterMap_flatMap]
  rfl

section

variable {resolve σ : String → Option Term} {p p' c c' v : Term} {n : String}

/-- What is related fits, whatever is assigned to captures. -/
theorem Relates.fits (h : Relates resolve σ p c) : Fits resolve p c := by
  induction h with
  | capture => exact .capture _ _
  | same name => exact .same name
  | stored hu _ ih => exact .stored hu ih
  | followed hp hu _ ih => exact .followed hp hu ih
  | parts hds _ ih => exact .parts hds ih

/-- What a capture meets is what is assigned to it. -/
theorem Meets.assigned (hm : Meets resolve p c n v) (h : Relates resolve σ p c) :
    σ n = some v := by
  -- Along the way to the capture, the relation goes the same way.
  induction hm with
  | here =>
    cases h with
    | capture h => exact h
    | followed hp => cases hp
    | parts hds => cases (Term.isConcrete_of_pairing hds).1
  | stored hc hu _ ih =>
    obtain heq | ⟨u', hu', h⟩ := Relates.reference_iff.1 h
    · exact absurd heq hc
    · obtain rfl := Option.some.inj (hu.symm.trans hu')
      exact ih h
  | followed hp hu _ ih =>
    obtain ⟨u', hu', h⟩ := (Relates.followed_iff hp).1 h
    obtain rfl := Option.some.inj (hu.symm.trans hu')
    exact ih h
  | parts hds hd _ ih =>
    obtain ⟨hconcrete, hcandidate⟩ := Term.isConcrete_of_pairing hds
    obtain ⟨ds', hds', h⟩ :=
      (Relates.parts_iff hconcrete (Term.reference?_of_isConcrete hcandidate)).1 h
    obtain rfl := Option.some.inj (hds.symm.trans hds')
    exact ih (h _ hd)

/-- An assignment of what captures meet relates what fits. -/
theorem Fits.relates (h : Fits resolve p c) (hσ : ∀ n v, Meets resolve p c n v → σ n = some v) :
    Relates resolve σ p c := by
  induction h with
  | capture name c => exact .capture (hσ name c .here)
  | same name => exact .same name
  | @stored name u c hu _ ih =>
    by_cases hc : c = .reference name
    · rw [hc]
      exact .same name
    · exact .stored hu (ih fun n v hm ↦ hσ n v (.stored hc hu hm))
  | followed hp hu _ ih => exact .followed hp hu (ih fun n v hm ↦ hσ n v (.followed hp hu hm))
  | parts hds _ ih => exact .parts hds fun d hd ↦ ih d hd fun n v hm ↦ hσ n v (.parts hds hd hm)

open Classical in
/-- **Some assignment relates two terms** just when they fit and their captures are consistent. -/
theorem exists_relates_iff :
    (∃ σ, Relates resolve σ p c) ↔ Fits resolve p c ∧ Consistent resolve p c := by
  constructor
  · rintro ⟨σ, h⟩
    exact ⟨h.fits, fun n v w hv hw ↦ Option.some.inj ((hv.assigned h).symm.trans (hw.assigned h))⟩
  · rintro ⟨hfits, hconsistent⟩
    refine ⟨fun n ↦ if h : ∃ v, Meets resolve p c n v then some h.choose else none,
      hfits.relates fun n v hv ↦ ?_⟩
    have hmet : ∃ v, Meets resolve p c n v := ⟨v, hv⟩
    rw [dif_pos hmet, hconsistent n _ v hmet.choose_spec hv]

/-! ### Reordering -/

/-- **Distinct names**: in no listing that is exposed in the term a name stands twice. -/
def Term.IsDistinct (t : Term) : Prop := ∀ u ∈ t.exposed, (u.entries.filterMap (·.name?)).Nodup

instance (t : Term) : Decidable t.IsDistinct := inferInstanceAs (Decidable (∀ u ∈ t.exposed, _))

theorem Term.IsDistinct.entries {t : Term} (h : t.IsDistinct) :
    (t.entries.filterMap (·.name?)).Nodup :=
  h t (mem_exposed.2 (.inl rfl))

/-- The parts of distinct terms are distinct. -/
theorem Term.IsDistinct.part {t v : Term} (h : t.IsDistinct) (hv : v ∈ t.parts) : v.IsDistinct :=
  fun u hu ↦ h u (mem_exposed_of_part hv hu)

/-- **Order makes no difference to fitting** in a pattern. -/
theorem Fits.reorder_pattern (h : Fits resolve p c) (hp : Reordered p' p) : Fits resolve p' c := by
  induction h generalizing p' with
  | capture name c =>
    cases hp.shape
    exact .capture name c
  | same name =>
    cases hp.shape
    exact .same name
  | stored hu h =>
    cases hp.shape
    exact .stored hu h
  | followed hconcrete hu _ ih => exact .followed (hp.isConcrete_eq.trans hconcrete) hu (ih hp)
  | parts hds _ ih =>
    obtain ⟨ds', hds', hall⟩ := hp.pairing_pattern hds
    refine .parts hds' fun d' hd' ↦ ?_
    obtain ⟨d, hd, hrel, heq⟩ := hall d' hd'
    rw [heq]
    exact ih d hd hrel

/-- Captures and references are compared with the same terms in a reordered pattern. -/
theorem Compares.reorder_pattern {q d : Term} (h : Compares resolve q d p c)
    (hq : q.isConcrete = false) (hp : Reordered p' p) : Compares resolve q d p' c := by
  induction h generalizing p' with
  | here =>
    cases hp.shape with
    | same => exact .here
    | _ => cases hq
  | stored hc hu h =>
    cases hp.shape
    exact .stored hc hu h
  | followed hconcrete hu _ ih => exact .followed (hp.isConcrete_eq.trans hconcrete) hu (ih hp)
  | @parts p c ds e hds he _ ih =>
    -- Pairs of the one pattern have their counterparts in the other one, both ways.
    obtain ⟨ds', hds', -⟩ := hp.pairing_pattern hds
    obtain ⟨ds'', hds'', hall⟩ := hp.symm.pairing_pattern hds'
    obtain rfl := Option.some.inj (hds.symm.trans hds'')
    obtain ⟨e', he', hrel, heq⟩ := hall e he
    exact .parts hds' he' (heq ▸ ih hrel.symm)

/-- **Order makes no difference to consistency** in a pattern. -/
theorem Consistent.reorder_pattern (h : Consistent resolve p c) (hp : Reordered p' p) :
    Consistent resolve p' c := fun n v w hv hw ↦
  h n v w (Compares.reorder_pattern hv rfl hp.symm) (Compares.reorder_pattern hw rfl hp.symm)

/-- **Order makes no difference to fitting** in a candidate with distinct names. -/
theorem Fits.reorder_candidate (h : Fits resolve p c) (hc : Reordered c' c)
    (hdistinct : c.IsDistinct) : Fits resolve p c' := by
  induction h generalizing c' with
  | capture name => exact .capture name c'
  | same name =>
    cases hc.shape
    exact .same name
  | stored hu _ ih => exact .stored hu (ih hc hdistinct)
  | followed hconcrete hu h =>
    cases hc.shape
    exact .followed hconcrete hu h
  | parts hds _ ih =>
    obtain ⟨ds', hds', hall⟩ := hc.pairing_candidate hdistinct.entries hds
    refine .parts hds' fun d' hd' ↦ ?_
    obtain ⟨d, hd, heq, hrel⟩ := hall d' hd'
    rw [heq]
    exact ih d hd hrel (hdistinct.part (Term.mem_parts_of_pairing hds hd).2)

/-- Reordering keeps terms distinct. -/
theorem Reordered.isDistinct {t' t : Term} (h : Reordered t' t) (ht : t.IsDistinct) :
    t'.IsDistinct := by
  induction t' using Term.induction_parts generalizing t with
  | h t' ih =>
    intro u hu
    rcases Term.mem_exposed.1 hu with rfl | ⟨v', hv', hu⟩
    · cases h.shape with
      | same => exact ht.entries
      | listing hl | call hl => exact hl.names_perm.nodup_iff.2 ht.entries
      | array | rule => exact List.nodup_nil
    · obtain ⟨v, hv, hrel⟩ := h.exists_part hv'
      exact ih v' hv' hrel (ht.part hv) u hu

/-! ### Captures of different names -/

/-- What is captured is a capture of the pattern, where the references met in it are plain. -/
theorem Meets.mem_captures {N : Set String} (hm : Meets resolve p c n v) (hN : Plain resolve N)
    (hp : ∀ x ∈ p.references, x ∈ N) : n ∈ p.captures := by
  induction hm with
  | here => exact Term.mem_captures_self n
  | @stored name u _ _ hu _ ih =>
    have hname : name ∈ N := hp name (Term.mem_references_self name)
    have hn := ih (hN.closed name hname u hu)
    rw [hN.captures name hname u hu] at hn
    cases hn
  | followed _ _ _ ih => exact ih hp
  | parts hds hd _ ih =>
    have hpart := (Term.mem_parts_of_pairing hds hd).1
    refine Term.mem_captures_of_part hpart (ih fun x hx ↦ hp x ?_)
    exact Term.mem_references_of_part hpart hx

/-- Where the parts are paired, captures meet what they meet in a pair. -/
theorem Meets.exists_pair {ds : List (Term × Term)} (hm : Meets resolve p c n v)
    (hds : p.pairing c = some ds) : ∃ d ∈ ds, Meets resolve d.1 d.2 n v := by
  obtain ⟨hconcrete, hcandidate⟩ := Term.isConcrete_of_pairing hds
  cases hm with
  | here | stored => cases hconcrete
  | followed => cases hcandidate
  | parts hds' hd h =>
    obtain rfl := Option.some.inj (hds.symm.trans hds')
    exact ⟨_, hd, h⟩

/-- **Captures of different names are consistent**, if no stored term brings in others. -/
theorem consistent_of_nodup {N : Set String} (hN : Plain resolve N)
    (hp : ∀ x ∈ p.references, x ∈ N) (hnodup : p.captures.Nodup) : Consistent resolve p c := by
  intro n v w hv hw
  induction hv with
  | here =>
    cases hw with
    | here => rfl
    | followed hconcrete => cases hconcrete
    | parts hds => cases (Term.isConcrete_of_pairing hds).1
  | @stored name u _ _ hu hv =>
    have hname : name ∈ N := hp name (Term.mem_references_self name)
    have hn := Meets.mem_captures hv hN (hN.closed name hname u hu)
    rw [hN.captures name hname u hu] at hn
    cases hn
  | followed hconcrete hu _ ih =>
    cases hw with
    | here | stored => cases hconcrete
    | followed _ hu' hw =>
      obtain rfl := Option.some.inj (hu.symm.trans hu')
      exact ih hp hnodup hw
    | parts hds => cases (Term.isConcrete_of_pairing hds).2
  | @parts p c ds d hds hd hv ih =>
    obtain ⟨d', hd', hw⟩ := Meets.exists_pair hw hds
    have hpN (e : Term × Term) (he : e ∈ ds) : ∀ x ∈ e.1.references, x ∈ N := fun x hx ↦
      hp x (Term.mem_references_of_part (Term.mem_parts_of_pairing hds he).1 hx)
    rw [Term.captures_of_isConcrete (Term.isConcrete_of_pairing hds).1, ← Term.map_fst_pairing hds,
      List.flatMap_map, List.nodup_flatMap] at hnodup
    -- Two pairs have no capture in common, so it is one pair that the name is met in.
    have hdisjoint : ds.Pairwise fun d e ↦ d.1.captures.Disjoint e.1.captures := hnodup.2
    have hsymm : Std.Symm fun d e : Term × Term ↦ d.1.captures.Disjoint e.1.captures :=
      ⟨fun _ _ h ↦ h.symm⟩
    have hsame : d = d' := by
      by_contra hne
      exact hdisjoint.forall hd hd' hne (Meets.mem_captures hv hN (hpN d hd))
        (hw.mem_captures hN (hpN d' hd'))
    exact ih (hpN d hd) (hnodup.1 d hd) (hsame ▸ hw)

/-- A reference that is compared is found in the pattern or through the references in it. -/
theorem Compares.mem_references {N : Set String} (h : Compares resolve (.reference n) v p c)
    (hN : Closed resolve N) (hp : ∀ x ∈ p.references, x ∈ N) : n ∈ N := by
  induction h with
  | here => exact hp n (Term.mem_references_self n)
  | @stored name u _ _ hu _ ih => exact ih (hN name (hp name (Term.mem_references_self name)) u hu)
  | followed _ _ _ ih => exact ih hp
  | parts hds he _ ih =>
    have hpart := (Term.mem_parts_of_pairing hds he).1
    exact ih fun x hx ↦ hp x (Term.mem_references_of_part hpart hx)

/-- **Captures with names of their own are untangled**, if no stored term brings in others. -/
theorem untangled_of_captures {N : Set String} (hN : Plain resolve N)
    (hp : ∀ x ∈ p.references, x ∈ N) (hcaptures : ∀ n ∈ p.captures, n ∉ N) :
    Untangled resolve p c :=
  fun n _ _ hv hw ↦
    absurd (hw.mem_references hN.closed hp) (hcaptures n (hv.mem_captures hN hp))

end

namespace Matching

/-! ### Runs that have an assignment to agree with -/

variable {resolve σ : String → Option Term} {p c : Term} {b : Binding} {N : Set String}
  {I I' : Binding → Prop}

/-- **A run carries on**: it ends with a binding of some sort, or fails otherwise than by a
mismatch. -/
def Carries (I : Binding → Prop) : Except Stop Binding → Prop
  | .ok b => I b
  | .error e => e ≠ .mismatch

/-- What is carried by one computation and on by the next is carried by both. -/
theorem Carries.bind {x : Except Stop Binding} {f : Binding → Except Stop Binding}
    (hx : Carries I x) (hf : ∀ b, I b → Carries I' (f b)) : Carries I' (x.bind f) := by
  cases x with
  | error e => exact hx
  | ok b => exact hf b hx

/-- Pairs that carry an invariant one by one do so one after the other. -/
theorem carries_matchPairs {step : Step} {ds : List (Term × Term)}
    (h : ∀ d ∈ ds, ∀ b, I b → Carries I (step d.1 d.2 b)) (hb : I b) :
    Carries I (matchPairs step ds b) := by
  induction ds generalizing b with
  | nil => exact hb
  | cons d ds ih =>
    rw [matchPairs_cons]
    refine (h d List.mem_cons_self b hb).bind fun b₁ hb₁ ↦ ?_
    exact ih (fun d' hd' ↦ h d' (List.mem_cons_of_mem d hd')) hb₁

/-- Noting a reference does not disturb the agreement if the name does not matter, or is assigned
what is noted. -/
theorem AgreesOff.note_assigned (h : AgreesOff N σ b) {name : String} {t : Term}
    (ht : name ∈ N ∨ σ name = some t) : AgreesOff N σ (b.note name t) := by
  rcases ht with hname | ht
  · exact h.note hname t
  · intro n u hn hu
    rw [Binding.get?_note] at hu
    split at hu
    · next heq =>
      subst heq
      cases hget : b.get? n with
      | none =>
        rw [hget] at hu
        exact ht.trans hu
      | some w =>
        rw [hget] at hu
        exact (h n w hn hget).trans hu
    · exact h n u hn hu

/-- **What an assignment relates comes to no mismatch**, from a binding that agrees with it, at any
depth and over any storage. Names that do not count are none of a capture, and a reference whose
name counts has to meet what is assigned to it. -/
theorem carries_matchWithin (h : Relates resolve σ p c)
    (hcaptures : ∀ n v, Meets resolve p c n v → n ∉ N)
    (hreferences : ∀ n w, Compares resolve (.reference n) w p c → n ∈ N ∨ σ n = some w)
    (depth : Nat) (hb : AgreesOff N σ b) :
    Carries (AgreesOff N σ) (matchWithin resolve depth p c b) := by
  induction h generalizing depth b with
  | @capture name c h =>
    cases depth with
    | zero => exact nofun
    | succ depth =>
      obtain ⟨b', hbind, hb'⟩ := hb.bind? (hcaptures name c .here) h
      show Carries _ (orMismatch (b.bind? name c))
      rwa [hbind]
  | same name =>
    cases depth with
    | zero => exact nofun
    | succ depth =>
      rw [matchWithin_same]
      exact hb.note_assigned (hreferences name _ .here)
  | @stored name u c hu _ ih =>
    cases depth with
    | zero => exact nofun
    | succ depth =>
      by_cases hc : c = .reference name
      · subst hc
        rw [matchWithin_same]
        exact hb.note_assigned (hreferences name _ .here)
      · have hcarries := ih (fun n v hv ↦ hcaptures n v (.stored hc hu hv))
          (fun n w hw ↦ hreferences n w (.stored hc hu hw)) depth hb
        rw [matchWithin_reference hc, hu]
        -- The reference is noted last, behind all that what is stored for it has bound.
        exact hcarries.bind (f := fun b₁ ↦ .ok (b₁.note name c)) fun b₁ hb₁ ↦
          hb₁.note_assigned (hreferences name c .here)
  | followed hconcrete hu _ ih =>
    cases depth with
    | zero => exact nofun
    | succ depth =>
      rw [matchWithin_followed hconcrete, hu]
      exact ih (fun n v hv ↦ hcaptures n v (.followed hconcrete hu hv))
        (fun n w hw ↦ hreferences n w (.followed hconcrete hu hw)) depth hb
  | parts hds _ ih =>
    cases depth with
    | zero => exact nofun
    | succ depth =>
      obtain ⟨hconcrete, hcandidate⟩ := Term.isConcrete_of_pairing hds
      rw [matchWithin_shape hconcrete (Term.reference?_of_isConcrete hcandidate),
        matchShape_eq hds]
      refine carries_matchPairs (fun d hd b hb ↦ ?_) hb
      exact ih d hd (fun n v hv ↦ hcaptures n v (.parts hds hd hv))
        (fun n w hw ↦ hreferences n w (.parts hds hd hw)) depth hb

end Matching

/-! ### The outcome of a match -/

section

variable {s : Storage} {p p' c c' : Term} {o o' : Option Binding}

/-- **Matching decides whether two terms fit with consistent captures**, over any storage, wherever
it is no error and captures and references are untangled. -/
theorem Term.matching_isSome_iff (huntangled : Untangled s.resolve p c)
    (ho : p.matching s c = .ok o) :
    o.isSome = true ↔ Fits s.resolve p c ∧ Consistent s.resolve p c := by
  rw [← exists_relates_iff]
  constructor
  · intro hsome
    obtain ⟨b, rfl⟩ := Option.isSome_iff_exists.1 hsome
    exact exists_relates_of_matching ho
  · rintro ⟨σ, h⟩
    -- Only the names of captures count, and a reference of such a name meets what the capture does.
    let N : Set String := {n | ∀ v, ¬ Meets s.resolve p c n v}
    have hreferences (n : String) (w : Term) (hw : Compares s.resolve (.reference n) w p c) :
        n ∈ N ∨ σ n = some w := by
      refine or_iff_not_imp_left.2 fun hn ↦ ?_
      obtain ⟨v, hv⟩ := not_forall_not.1 hn
      rw [huntangled n v w hv hw]
      exact hv.assigned h
    have hcarries := Matching.carries_matchWithin (N := N) h (fun n v hv hn ↦ hn v hv)
      hreferences (Matching.depthBound s p c) (b := {}) nofun
    rw [matching] at ho
    cases hrun : Matching.matchWithin s.resolve (Matching.depthBound s p c) p c {} with
    | ok b =>
      rw [hrun] at ho
      cases ho
      rfl
    | error e =>
      rw [hrun] at ho hcarries
      cases e with
      | mismatch => exact absurd rfl hcarries
      | _ => cases ho

/-- **Matching does not depend on the order of named entries**, in a pattern or a candidate with
distinct names, over any storage: if neither of two matches is an error, captures and references are
untangled in both, and captures of one name meet equal terms in both or in neither, then both are
matches or neither is. If the candidate is the same, captures meet the same terms. -/
theorem Term.matching_reorder (hp : Reordered p' p) (hc : Reordered c' c) (hdistinct : c.IsDistinct)
    (huntangled : Untangled s.resolve p c) (huntangled' : Untangled s.resolve p' c')
    (hconsistent : c' ≠ c → (Consistent s.resolve p c ↔ Consistent s.resolve p' c'))
    (ho : p.matching s c = .ok o) (ho' : p'.matching s c' = .ok o') :
    o.isSome = true ↔ o'.isSome = true := by
  have hfits : Fits s.resolve p c ↔ Fits s.resolve p' c' :=
    ⟨fun h ↦ (h.reorder_pattern hp).reorder_candidate hc hdistinct,
      fun h ↦ (h.reorder_pattern hp.symm).reorder_candidate hc.symm (hc.isDistinct hdistinct)⟩
  have hsame : Consistent s.resolve p c ↔ Consistent s.resolve p' c' := by
    by_cases hne : c' = c
    · subst hne
      exact ⟨fun h ↦ h.reorder_pattern hp, fun h ↦ h.reorder_pattern hp.symm⟩
    · exact hconsistent hne
  rw [matching_isSome_iff huntangled ho, matching_isSome_iff huntangled' ho', hfits, hsame]

/-- A capture beside a reference to a term that mentions itself: a match found in one order is found
in the other. -/
theorem Term.matching_reorder_circular :
    let call (es : List (String × Term)) : Term :=
      .call "F" ⟨es.map fun e ↦ ⟨.named e.1, [], e.2⟩, .parameters⟩ none
    let s : Storage := .ofList [("x", .array [.reference "x"])]
    (∃ b, (call [("a", .capture "n"), ("b", .reference "x")]).matching s
      (call [("a", .text "1"), ("b", .reference "x")]) = .ok (some b)) ∧
    ∃ b, (call [("b", .reference "x"), ("a", .capture "n")]).matching s
      (call [("b", .reference "x"), ("a", .text "1")]) = .ok (some b) := by
  intro call s
  have hreordered (u v : Term) :
      Reordered (call [("b", v), ("a", u)]) (call [("a", u), ("b", v)]) := by
    refine .call [(⟨.named "b", [], v⟩, ⟨.named "b", [], v⟩),
      (⟨.named "a", [], u⟩, ⟨.named "a", [], u⟩)] (by simp) (by simp [Reordered.refl]) (.inl rfl)
      (.inr ⟨by simp [Entry.name?, Label.name?], .swap _ _ _⟩)
  have hfree : ∀ e ∈ s.entries, e.2.captures = [] := by decide
  have hplain : Plain s.resolve {x | x ∈ ["x"]} :=
    ⟨s.closed_of_entries (by decide), fun _ _ _ hu ↦ hfree _ (s.mem_of_resolve hu)⟩
  have hmatch : ∃ b, (call [("a", .capture "n"), ("b", .reference "x")]).matching s
      (call [("a", .text "1"), ("b", .reference "x")]) = .ok (some b) := ⟨_, rfl⟩
  obtain ⟨b, hb⟩ := hmatch
  obtain ⟨o, ho⟩ := exists_eq_ok (by decide +kernel : ((call [("b", .reference "x"),
    ("a", .capture "n")]).matching s (call [("b", .reference "x"), ("a", .text "1")])).isOk = true)
  have hsome : o.isSome = true := by
    refine (Term.matching_reorder (hreordered _ _) (hreordered _ _) (by decide)
      (untangled_of_captures hplain (by decide) (by decide))
      (untangled_of_captures hplain (by decide) (by decide)) (fun _ ↦ iff_of_true ?_ ?_) hb
      ho).1 rfl <;>
        exact consistent_of_nodup hplain (by decide) (by decide)
  obtain ⟨b', rfl⟩ := Option.isSome_iff_exists.1 hsome
  exact ⟨⟨b, hb⟩, b', ho⟩

/-- **Order matters** where a name is captured twice and the terms that its captures meet are equal
up to order only; and where a name is both captured and referred to, because the reference is noted
under the name that the capture is to be bound to. The capture need not stand in the pattern: it may
be what is stored for another reference. -/
theorem Term.not_matching_reorder :
    (let call (name : String) (es : List (String × Term)) : Term :=
       .call name ⟨es.map fun e ↦ ⟨.named e.1, [], e.2⟩, .parameters⟩ none
     let g := call "G" [("x", .text "1"), ("y", .text "2")]
     let g' := call "G" [("y", .text "2"), ("x", .text "1")]
     let p := call "F" [("a", .capture "n"), ("b", .capture "n")]
     let c := call "F" [("a", g), ("b", g)]
     let c' := call "F" [("a", g), ("b", g')]
     Reordered c' c ∧ p.IsTidy ∧ c.IsTidy ∧ (∃ b, p.matching .empty c = .ok (some b)) ∧
       p.matching .empty c' = .ok none) ∧
    (let call (es : List (String × Term)) : Term :=
       .call "F" ⟨es.map fun e ↦ ⟨.named e.1, [], e.2⟩, .parameters⟩ none
     let p := call [("a", .capture "n"), ("b", .reference "n")]
     let p' := call [("b", .reference "n"), ("a", .capture "n")]
     let c := call [("a", .text "1"), ("b", .reference "n")]
     Reordered p' p ∧ p.IsTidy ∧ c.IsTidy ∧ (∃ b, p.matching .empty c = .ok (some b)) ∧
       p'.matching .empty c = .ok none) ∧
    (let call (es : List (String × Term)) : Term :=
       .call "F" ⟨es.map fun e ↦ ⟨.named e.1, [], e.2⟩, .parameters⟩ none
     let s : Storage := .ofList [("x", .capture "n")]
     let p := call [("a", .reference "x"), ("b", .reference "n")]
     let p' := call [("b", .reference "n"), ("a", .reference "x")]
     let c := call [("a", .text "1"), ("b", .reference "n")]
     Reordered p' p ∧ p.IsTidy ∧ c.IsTidy ∧ (∃ b, p.matching s c = .ok (some b)) ∧
       p'.matching s c = .ok none) := by
  have hswap (name : String) (e e' : Entry Term) (he : e.name?.isSome = true)
      (he' : e'.name?.isSome = true) : Reordered (.call name ⟨[e', e], .parameters⟩ none)
        (.call name ⟨[e, e'], .parameters⟩ none) :=
    .call [(e', e'), (e, e)] (by simp) (by simp [Reordered.refl]) (.inl rfl)
      (.inr ⟨by simp [he, he'], .swap _ _ _⟩)
  refine ⟨?_, ?_, ?_⟩
  · intro call g g' p c c'
    have hg : Reordered g' g := hswap "G" _ _ rfl rfl
    have hc : Reordered c' c :=
      .call [(⟨.named "a", [], g⟩, ⟨.named "a", [], g⟩),
        (⟨.named "b", [], g'⟩, ⟨.named "b", [], g⟩)] (by simp) (by simp [Reordered.refl, hg])
        (.inl rfl) (.inl rfl)
    exact ⟨hc, by decide, by decide, ⟨_, rfl⟩, by decide +kernel⟩
  · intro call p p' c
    exact ⟨hswap "F" _ _ rfl rfl, by decide, by decide, ⟨_, rfl⟩, by decide +kernel⟩
  · intro call s p p' c
    exact ⟨hswap "F" _ _ rfl rfl, by decide, by decide, ⟨_, rfl⟩, by decide +kernel⟩

end

end TermRegistry
