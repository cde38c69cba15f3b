import TermRegistry.Proofs.Matching.Depth

/-!
# The relation that matching decides

`Relates resolve σ p c` says, without an order of work, when a pattern matches a candidate under an
assignment `σ` of terms to the names of captures. A capture relates to the term assigned to it; a
reference relates to itself, and to all that the term stored for it relates to; any other pattern
relates to a reference through the term stored for it, and else part by part.

**Design.** Matching threads one binding through its steps, in which the terms bound by captures
stand beside those noted for references. The relation has the assignment fixed from the start, so
it can be taken apart in any order. What makes the two comparable is that the relation looks at no
more than the captures of the pattern (`Relates.congr`), and at all of them (`Relates.assigned`).
-/

namespace TermRegistry

/-- Nothing is stored, or assigned. -/
abbrev nothing : String → Option Term := fun _ ↦ none

/-- **What a pattern matches** under an assignment of terms to captures. -/
inductive Relates (resolve σ : String → Option Term) : Term → Term → Prop
  /-- A capture relates to the term that is assigned to it. -/
  | capture {name : String} {c : Term} (h : σ name = some c) :
    Relates resolve σ (.capture name) c
  /-- A reference relates to itself, whether or not anything is stored for it. -/
  | same (name : String) : Relates resolve σ (.reference name) (.reference name)
  /-- A reference in the pattern stands for the term that is stored for it. -/
  | stored {name : String} {u c : Term} (hu : resolve name = some u)
    (h : Relates resolve σ u c) : Relates resolve σ (.reference name) c
  /-- A reference in the candidate stands for the term that is stored for it. -/
  | followed {name : String} {p u : Term} (hp : p.isConcrete = true) (hu : resolve name = some u)
    (h : Relates resolve σ p u) : Relates resolve σ p (.reference name)
  /-- Other terms relate when the parts that they pair do. -/
  | parts {p c : Term} {ds : List (Term × Term)} (hds : p.pairing c = some ds)
    (h : ∀ d ∈ ds, Relates resolve σ d.1 d.2) : Relates resolve σ p c

/-- **Plain names**: closed names for which terms without captures are stored. -/
structure Plain (resolve : String → Option Term) (names : Set String) : Prop where
  closed : Closed resolve names
  captures : ∀ x ∈ names, ∀ u, resolve x = some u → u.captures = []

namespace Relates

variable {resolve resolve' σ σ' : String → Option Term} {p c t : Term} {name : String}

/-! ### Taking it apart -/

/-- **What a reference matches**: itself, and what the term stored for it matches. -/
theorem reference_iff : Relates resolve σ (.reference name) c ↔
    c = .reference name ∨ ∃ u, resolve name = some u ∧ Relates resolve σ u c := by
  constructor
  · intro h
    cases h with
    | same => exact .inl rfl
    | stored hu h => exact .inr ⟨_, hu, h⟩
    | followed hp => cases hp
    | parts hds => cases (Term.isConcrete_of_pairing hds).1
  · rintro (rfl | ⟨u, hu, h⟩)
    · exact .same name
    · exact .stored hu h

/-- What matches a reference is what matches the term stored for it. -/
theorem followed_iff (hp : p.isConcrete = true) : Relates resolve σ p (.reference name) ↔
    ∃ u, resolve name = some u ∧ Relates resolve σ p u := by
  constructor
  · intro h
    cases h with
    | capture | same | stored => cases hp
    | followed _ hu h => exact ⟨_, hu, h⟩
    | parts hds => cases (Term.isConcrete_of_pairing hds).2
  · rintro ⟨u, hu, h⟩
    exact .followed hp hu h

/-- Where neither side is a reference or a capture, all that is paired has to match. -/
theorem parts_iff (hp : p.isConcrete = true) (hc : c.reference? = none) : Relates resolve σ p c ↔
    ∃ ds, p.pairing c = some ds ∧ ∀ d ∈ ds, Relates resolve σ d.1 d.2 := by
  constructor
  · intro h
    cases h with
    | capture | same | stored => cases hp
    | followed => cases hc
    | parts hds h => exact ⟨_, hds, h⟩
  · rintro ⟨ds, hds, h⟩
    exact .parts hds h

/-! ### Assignments -/

/-- Assigning terms to more names keeps what is related. -/
theorem mono (h : Relates resolve σ p c) (hσ : ∀ n t, σ n = some t → σ' n = some t) :
    Relates resolve σ' p c := by
  induction h with
  | capture h => exact .capture (hσ _ _ h)
  | same name => exact .same name
  | stored hu _ ih => exact .stored hu ih
  | followed hp hu _ ih => exact .followed hp hu ih
  | parts hds _ ih => exact .parts hds ih

/-- **Only the captures of the pattern matter** for an assignment, where the references met in it
are plain. -/
theorem congr {names : Set String} (h : Relates resolve σ p c) (hN : Plain resolve names)
    (hp : ∀ x ∈ p.references, x ∈ names) (hσ : ∀ n ∈ p.captures, σ n = σ' n) :
    Relates resolve σ' p c := by
  induction h with
  | capture h => exact .capture ((hσ _ (Term.mem_captures_self _)).symm.trans h)
  | same name => exact .same name
  | @stored name u c hu _ ih =>
    have hname : name ∈ names := hp name (Term.mem_references_self name)
    refine .stored hu (ih (hN.closed name hname u hu) fun n hn ↦ ?_)
    rw [hN.captures name hname u hu] at hn
    cases hn
  | followed hp' hu _ ih => exact .followed hp' hu (ih hp hσ)
  | parts hds _ ih =>
    refine .parts hds fun d hd ↦ ?_
    have hpart := (Term.mem_parts_of_pairing hds hd).1
    exact ih d hd (fun x hx ↦ hp x (Term.mem_references_of_part hpart hx))
      fun n hn ↦ hσ n (Term.mem_captures_of_part hpart hn)

/-- **All captures of the pattern are assigned** a term. -/
theorem assigned (h : Relates resolve σ p c) {n : String} (hn : n ∈ p.captures) :
    ∃ t, σ n = some t := by
  induction h with
  | capture h =>
    obtain rfl := List.mem_singleton.1 hn
    exact ⟨_, h⟩
  | same | stored => cases hn
  | followed _ _ _ ih => exact ih hn
  | parts hds _ ih =>
    rcases Term.mem_captures_cases hn with rfl | ⟨v, hv, hn⟩
    · cases (Term.isConcrete_of_pairing hds).1
    · rw [← Term.map_fst_pairing hds] at hv
      obtain ⟨d, hd, rfl⟩ := List.mem_map.1 hv
      exact ih d hd hn

/-! ### Storages -/

/-- **Only the references met matter** for what is stored. -/
theorem congr_resolve {names : Set String} (h : Relates resolve σ p c) (hN : Closed resolve names)
    (hr : ∀ x ∈ names, resolve x = resolve' x) (hp : ∀ x ∈ p.references, x ∈ names)
    (hc : ∀ x ∈ c.references, x ∈ names) : Relates resolve' σ p c := by
  induction h with
  | capture h => exact .capture h
  | same name => exact .same name
  | @stored name u c hu _ ih =>
    have hname : name ∈ names := hp name (Term.mem_references_self name)
    exact .stored ((hr name hname).symm.trans hu) (ih (hN name hname u hu) hc)
  | @followed name p u hconcrete hu _ ih =>
    have hname : name ∈ names := hc name (Term.mem_references_self name)
    exact .followed hconcrete ((hr name hname).symm.trans hu) (ih hp (hN name hname u hu))
  | parts hds _ ih =>
    refine .parts hds fun d hd ↦ ?_
    have hparts := Term.mem_parts_of_pairing hds hd
    exact ih d hd (fun x hx ↦ hp x (Term.mem_references_of_part hparts.1 hx))
      fun x hx ↦ hc x (Term.mem_references_of_part hparts.2 hx)

end Relates

end TermRegistry
