import TermRegistry.Proofs.Matching.Preorder
import TermRegistry.Proofs.Matching.Reflexivity
import TermRegistry.Proofs.Matching.Unbounded

/-!
# Putting what is stored in the place of a reference

A reference stands for the term that is stored for it, so one would expect that it makes no
difference to a match whether a call has the one or the other among its arguments. It does not, as
far as matching or failing goes, for the pattern and for the candidate (`Term.matching_follow`,
`Term.matching_follow_candidate`). Three things have to be seen to.

* The bindings are not the same: a reference in the pattern is noted. This could only be felt by a
  capture of the same name. So the bindings agree off the names of the references that are met
  (`Binding.AgreesOff`), and if no capture has such a name, then matching goes on in the same way
  from bindings that agree (`Matching.alikeOff_matchFully`).
* A reference matches itself at once. The term that is stored has to match itself in turn
  (`Matching.matchFully_self`), for which it must not hold captures, nor a name twice.
* A match may have no end. Then it must have none either way, so the steps are counted on neither
  side: all is said about `Matching.matchFully`.
-/

namespace TermRegistry

/-! ### Bindings that agree -/

/-- Two bindings **agree** on all names but some. -/
def Binding.AgreesOff (N : Set String) (b b' : Binding) : Prop := ∀ n ∉ N, b.get? n = b'.get? n

namespace Binding.AgreesOff

variable {N : Set String} {b b' b'' : Binding} {name : String}

theorem refl (N : Set String) (b : Binding) : b.AgreesOff N b := fun _ _ ↦ rfl

theorem symm (h : b.AgreesOff N b') : b'.AgreesOff N b := fun n hn ↦ (h n hn).symm

/-- Agreement off the same names is transitive. -/
theorem trans (h : b.AgreesOff N b') (h' : b'.AgreesOff N b'') : b.AgreesOff N b'' :=
  fun n hn ↦ (h n hn).trans (h' n hn)

/-- What is noted for one of the names makes no difference to the others. -/
theorem note (hname : name ∈ N) (b : Binding) (t : Term) : (b.note name t).AgreesOff N b := by
  intro n hn
  have hne : n ≠ name := fun heq ↦ hn (heq ▸ hname)
  rw [get?_note, if_neg hne]

/-- Bindings that agree do so after the same is bound in both. -/
theorem insert (h : b.AgreesOff N b') (name : String) (t : Term) :
    (b.insert name t).AgreesOff N (b'.insert name t) := by
  intro n hn
  rw [get?_insert, get?_insert, h n hn]

end Binding.AgreesOff

/-- Where there are no captures, they may be taken to have any property. -/
theorem Term.forall_captures_of_nil {t : Term} (h : t.captures = []) (P : String → Prop) :
    ∀ n ∈ t.captures, P n := by
  rw [h]
  exact List.forall_mem_nil P

namespace Matching

variable {N : Set String} {b b' b'' : Binding} {x y z : Except Stop Binding}
  {resolve : String → Option Term} {step : Step} {depth : Nat} {p p' c c' t u : Term}
  {name : String}

/-- **The same outcome** but for some names: bindings that agree, or one failure. -/
inductive AlikeOff (N : Set String) : Except Stop Binding → Except Stop Binding → Prop
  | ok {b b' : Binding} (h : b.AgreesOff N b') : AlikeOff N (.ok b) (.ok b')
  | error (e : Stop) : AlikeOff N (.error e) (.error e)

namespace AlikeOff

theorem symm (h : AlikeOff N x y) : AlikeOff N y x := by
  cases h with
  | ok h => exact .ok h.symm
  | error e => exact .error e

/-- **What goes on alike from bindings that agree** comes out alike. -/
theorem bind {f g : Binding → Except Stop Binding} (h : AlikeOff N x y)
    (hfg : ∀ b b', b.AgreesOff N b' → AlikeOff N (f b) (g b')) :
    AlikeOff N (x.bind f) (y.bind g) := by
  cases h with
  | ok h => exact hfg _ _ h
  | error e => exact .error e

/-- What is noted for one of the names may be noted on one side alone. -/
theorem note (hname : name ∈ N) (c : Term) (h : AlikeOff N x y) :
    AlikeOff N (x.map (·.note name c)) y := by
  cases h with
  | ok h => exact .ok ((Binding.AgreesOff.note hname _ c).trans h)
  | error e => exact .error e

/-- Or it may be noted on both sides, whatever it is. -/
theorem note_both (hname : name ∈ N) (c c' : Term) (h : AlikeOff N x y) :
    AlikeOff N (x.map (·.note name c)) (y.map (·.note name c')) :=
  ((h.note hname c).symm.note hname c').symm

end AlikeOff

/-! ### Matching from bindings that agree -/

/-- A name off those that do not matter is bound alike. -/
theorem alikeOff_bind? (hb : b.AgreesOff N b') (hname : name ∉ N) (t : Term) :
    AlikeOff N (orMismatch (b.bind? name t)) (orMismatch (b'.bind? name t)) := by
  rw [Binding.bind?, Binding.bind?, ← hb name hname]
  cases b.get? name with
  | none => exact .ok (hb.insert name t)
  | some bound =>
    dsimp only
    split
    · exact .ok hb
    · exact .error .mismatch

/-- Pairs are matched alike if each of them and what is put in its place are. -/
theorem alikeOff_matchPairs {ds : List (Term × Term)} {f g : Term → Term}
    (h : ∀ d ∈ ds, ∀ b b', b.AgreesOff N b' →
      AlikeOff N (step d.1 d.2 b) (step (f d.1) (g d.2) b')) (hb : b.AgreesOff N b') :
    AlikeOff N (matchPairs step ds b) (matchPairs step (ds.map (Prod.map f g)) b') := by
  induction ds generalizing b b' with
  | nil => exact .ok hb
  | cons d ds ih =>
    rw [List.map_cons, matchPairs_cons, matchPairs_cons]
    exact (h d List.mem_cons_self b b' hb).bind
      fun b₁ b₁' hb₁ ↦ ih (fun d' hd' ↦ h d' (List.mem_cons_of_mem d hd')) hb₁

/-- **Shapes are matched alike** if the same pairs are tried in them, up to what is put in the place
of terms, and if all is paired in both or in neither. -/
theorem alikeOff_matchShape {f g : Term → Term}
    (hopening : p'.opening c' = (p.opening c).map (Prod.map f g))
    (hpairing : (p'.pairing c').isSome = (p.pairing c).isSome)
    (h : ∀ d ∈ p.opening c, ∀ b b', b.AgreesOff N b' →
      AlikeOff N (step d.1 d.2 b) (step (f d.1) (g d.2) b')) (hb : b.AgreesOff N b') :
    AlikeOff N (matchShape step p c b) (matchShape step p' c' b') := by
  rw [matchShape_opening, matchShape_opening, hopening]
  refine (alikeOff_matchPairs h hb).bind fun b₁ b₁' hb₁ ↦ ?_
  cases hds : p.pairing c with
  | none =>
    rw [hds, Option.isSome_none, Option.isSome_eq_false_iff, Option.isNone_iff_eq_none] at hpairing
    rw [hpairing]
    exact .error .mismatch
  | some ds =>
    rw [hds, Option.isSome_some] at hpairing
    obtain ⟨ds', hds'⟩ := Option.isSome_iff_exists.1 hpairing
    rw [hds']
    exact .ok hb₁

/-- **Matching goes on alike** from bindings that agree off plain names, among which are all
references of the pattern and none of its captures. -/
theorem alikeOff_matchWithin (hN : Plain resolve N) (hp : ∀ x ∈ p.references, x ∈ N)
    (hcaptures : ∀ n ∈ p.captures, n ∉ N) (hb : b.AgreesOff N b') :
    AlikeOff N (matchWithin resolve depth p c b) (matchWithin resolve depth p c b') := by
  -- Both sides take the same step; what differs is bound to plain names, and is never asked for,
  -- since captures have none of them.
  induction depth generalizing p c b b' with
  | zero => exact .error .exhausted
  | succ depth ih =>
    induction p, c using step_cases with
    | hcapture name c => exact alikeOff_bind? hb (hcaptures name (Term.mem_captures_self name)) c
    | hsame name =>
      rw [matchWithin_same, matchWithin_same]
      have hname : name ∈ N := hp name (Term.mem_references_self name)
      exact (AlikeOff.ok hb).note_both hname _ _
    | hstored name c hne =>
      have hname : name ∈ N := hp name (Term.mem_references_self name)
      rw [matchWithin_reference hne, matchWithin_reference hne]
      cases hu : resolve name with
      | none => exact .error _
      | some u =>
        have hnone := Term.forall_captures_of_nil (hN.captures name hname u hu) (· ∉ N)
        exact (ih (hN.closed name hname u hu) hnone hb).note_both hname c c
    | hfollowed p name hconcrete =>
      rw [matchWithin_followed hconcrete, matchWithin_followed hconcrete]
      cases resolve name with
      | none => exact .error _
      | some u => exact ih hp hcaptures hb
    | hshape p c hconcrete hreference =>
      rw [matchWithin_shape hconcrete hreference, matchWithin_shape hconcrete hreference]
      have hsame : p.opening c = (p.opening c).map (Prod.map id id) := by
        rw [Prod.map_id, List.map_id]
      refine alikeOff_matchShape hsame rfl (fun d hd b b' hb ↦ ?_) hb
      have hpart := (Term.mem_parts_of_opening hd).1
      exact ih (fun x hx ↦ hp x (Term.mem_references_of_part hpart hx))
        (fun n hn ↦ hcaptures n (Term.mem_captures_of_part hpart hn)) hb

/-- **A tidy term without captures matches itself**, and binds at most its references. -/
theorem matchWithin_self (hdepth : t.size ≤ depth) (ht : t.IsTidy) (hcaptures : t.captures = [])
    (hN : ∀ x ∈ t.references, x ∈ N) (b : Binding) :
    ∃ b', matchWithin resolve depth t t b = .ok b' ∧ b'.AgreesOff N b := by
  induction depth generalizing t b with
  | zero => exact absurd t.size_pos (Nat.not_lt_of_le hdepth)
  | succ depth ih =>
    -- A reference meets itself and is noted. All else that has no captures is paired with itself.
    cases hconcrete : t.isConcrete with
    | false =>
      cases t with
      | reference name =>
        have hname : name ∈ N := hN name (Term.mem_references_self name)
        exact ⟨_, matchWithin_same resolve depth name b, .note hname b _⟩
      | capture => cases hcaptures
      | _ => cases hconcrete
    | true =>
      have hpairing := Term.pairing_self hconcrete ht.entries.1 ht.unambiguous
      rw [matchWithin_shape hconcrete (Term.reference?_of_isConcrete hconcrete),
        matchShape_eq hpairing]
      refine matchPairs_of_forall (fun d hd b₁ hb₁ ↦ ?_) (.refl N b)
      obtain ⟨v, hv, rfl⟩ := List.mem_map.1 hd
      obtain ⟨b₂, hstep, hb₂⟩ := ih
        (Nat.le_of_lt_succ ((Term.size_lt_of_mem_parts hv).trans_le hdepth)) (ht.part hv)
        (Term.captures_part hcaptures hv)
        (fun x hx ↦ hN x (Term.mem_references_of_part hv hx)) b₁
      exact ⟨b₂, hstep, hb₂.trans hb₁⟩

variable {s : Storage}

/-- With all the depth that is needed, matching goes on alike from bindings that agree. -/
theorem alikeOff_matchFully (hN : Plain s.resolve N) (hp : ∀ x ∈ p.references, x ∈ N)
    (hcaptures : ∀ n ∈ p.captures, n ∉ N) (hb : b.AgreesOff N b') :
    AlikeOff N (matchFully s p c b) (matchFully s p c b') :=
  alikeOff_matchWithin hN hp hcaptures hb

/-- With all the depth that is needed, a tidy term without captures matches itself. -/
theorem matchFully_self (ht : t.IsTidy) (hcaptures : t.captures = [])
    (hN : ∀ x ∈ t.references, x ∈ N) (b : Binding) :
    ∃ b', matchFully s t t b = .ok b' ∧ b'.AgreesOff N b :=
  matchWithin_self (size_le_depthBound s t t) ht hcaptures hN b

end Matching

/-! ### Names that are captured and names that are referred to -/

/-- **A name is captured** on the way down from a pattern: in it, or in a term that is stored for a
reference met from it. -/
def Captured (resolve : String → Option Term) (p : Term) (n : String) : Prop :=
  n ∈ p.captures ∨ ∃ x u, Reaches resolve p x ∧ resolve x = some u ∧ n ∈ u.captures

/-- **Captures stand apart from references** if no name that is captured is also met as a
reference. -/
def Storage.Apart (s : Storage) (p : Term) : Prop :=
  ∀ n, Captured s.resolve p n → ¬ Reaches s.resolve p n

/-! ### What a reference stands for -/

namespace Storage

variable {s : Storage} {t u v w c p : Term} {name : String} {N : Set String} {b b' : Binding}

/-- **What a term stands for**, if it is a reference to something stored; else it is left as it
is. -/
def follow (s : Storage) : Term → Term
  | .reference name => (s.resolve name).getD (.reference name)
  | t => t

/-- **A storage of definitions**: what is stored is tidy, has no captures and is no reference. -/
structure Definite (s : Storage) : Prop where
  concrete : ∀ x u, s.resolve x = some u → u.isConcrete = true
  captures : ∀ x u, s.resolve x = some u → u.captures = []
  tidy : ∀ x u, s.resolve x = some u → u.IsTidy

/-- A reference to something stored stands for it. -/
theorem follow_stored (hu : s.resolve name = some u) : s.follow (.reference name) = u := by
  rw [follow, hu, Option.getD_some]

/-- What is no reference stands for itself. -/
theorem follow_of_reference? (h : t.reference? = none) : s.follow t = t := by
  cases t with
  | reference => cases h
  | _ => rfl

/-- Following leaves a term as it is, or takes a reference to what is stored for it. -/
theorem follow_cases (s : Storage) (t : Term) : s.follow t = t ∨
    ∃ name u, t = .reference name ∧ s.resolve name = some u ∧ s.follow t = u := by
  cases t with
  | reference name =>
    rw [follow]
    cases hu : s.resolve name with
    | none => exact .inl rfl
    | some u => exact .inr ⟨name, u, rfl, hu, rfl⟩
  | _ => exact .inl rfl

/-- In a storage of definitions all names are plain. -/
theorem Definite.plain_univ (hs : s.Definite) : Plain s.resolve Set.univ where
  closed := fun _ _ _ _ _ _ ↦ Set.mem_univ _
  captures := fun x _ ↦ hs.captures x

/-- A pattern without captures has none that could have the name of a reference. -/
theorem Definite.apart (hs : s.Definite) (hp : p.captures = []) : s.Apart p := by
  rintro n (hn | ⟨x, u, -, hu, hn⟩)
  · rw [hp] at hn
    cases hn
  · rw [hs.captures x u hu] at hn
    cases hn

/-- What is stored matches itself, with the reference in the place of the candidate. -/
theorem Definite.matchFully_reference (hs : s.Definite) (hu : s.resolve name = some u)
    (hN : Closed s.resolve N) (hname : name ∈ N) (b : Binding) :
    ∃ b', Matching.matchFully s u (.reference name) b = .ok b' ∧ b'.AgreesOff N b := by
  rw [Matching.matchFully_followed (hs.concrete name u hu) hu]
  exact Matching.matchFully_self (hs.tidy name u hu) (hs.captures name u hu)
    (hN name hname u hu) b

open Matching

/-- **What is stored may be put in the place of its reference in the pattern.** -/
theorem Definite.alikeOff_stored (hs : s.Definite) (hN : Closed s.resolve N) (hname : name ∈ N)
    (hu : s.resolve name = some u) (hb : b.AgreesOff N b') :
    AlikeOff N (matchFully s (.reference name) w b) (matchFully s u w b') := by
  by_cases hw : w = .reference name
  · -- The reference meets itself, and what it stands for meets the reference.
    obtain ⟨b₁, hself, hb₁⟩ := hs.matchFully_reference hu hN hname b'
    rw [hw, matchFully_same, hself]
    exact .ok (((Binding.AgreesOff.note hname b _).trans hb).trans hb₁.symm)
  · have hplain : Plain s.resolve N := ⟨hN, fun x _ ↦ hs.captures x⟩
    have hnone := Term.forall_captures_of_nil (hs.captures name u hu) (· ∉ N)
    rw [matchFully_stored hw hu]
    exact (alikeOff_matchFully hplain (hN name hname u hu) hnone hb).note hname w

/-- **A reference in the pattern** is matched like what it stands for. -/
theorem Definite.alikeOff_follow (hs : s.Definite) (hN : Closed s.resolve N)
    (hv : ∀ x ∈ v.references, x ∈ N) (hcaptures : ∀ n ∈ v.captures, n ∉ N)
    (hb : b.AgreesOff N b') :
    AlikeOff N (matchFully s v w b) (matchFully s (s.follow v) w b') := by
  rcases s.follow_cases v with hfollow | ⟨name, u, rfl, hu, hfollow⟩
  · rw [hfollow]
    exact alikeOff_matchFully ⟨hN, fun x _ ↦ hs.captures x⟩ hv hcaptures hb
  · rw [hfollow]
    exact hs.alikeOff_stored hN (hv name (Term.mem_references_self name)) hu hb

/-- Where the pattern has no captures, the bindings do not matter. -/
theorem Definite.alikeOff_univ (hs : s.Definite) (hv : v.captures = []) (w : Term)
    (b b' : Binding) : AlikeOff Set.univ (matchFully s v w b) (matchFully s v w b') :=
  alikeOff_matchFully hs.plain_univ (fun _ _ ↦ Set.mem_univ _)
    (Term.forall_captures_of_nil hv _) fun n hn ↦ absurd (Set.mem_univ n) hn

/-- **What is stored may be put in the place of its reference in the candidate.** -/
theorem Definite.alikeOff_stored_candidate (hs : s.Definite) (hv : v.captures = [])
    (hu : s.resolve name = some u) (b b' : Binding) :
    AlikeOff Set.univ (matchFully s v (.reference name) b) (matchFully s v u b') := by
  cases hconcrete : v.isConcrete with
  | true =>
    rw [matchFully_followed hconcrete hu]
    exact hs.alikeOff_univ hv u b b'
  | false =>
    cases v with
    | capture => cases hv
    -- Both sides are references: they are the same, or the one in the pattern is followed first.
    | reference x =>
      have hne : u ≠ .reference x := by
        rintro rfl
        cases hs.concrete name _ hu
      by_cases hx : name = x
      · -- The reference meets itself, and then what it stands for meets itself.
        subst hx
        obtain ⟨b₁, hself, -⟩ := matchFully_self (hs.tidy name u hu) (hs.captures name u hu)
          (fun x _ ↦ Set.mem_univ x) b'
        rw [matchFully_same, matchFully_stored hne hu, hself]
        exact .ok fun n hn ↦ absurd (Set.mem_univ n) hn
      · have hne' : Term.reference name ≠ .reference x := fun h ↦ hx (Term.reference.inj h)
        cases hx' : s.resolve x with
        | none =>
          rw [matchFully_unresolved hne' hx', matchFully_unresolved hne hx']
          exact .error _
        | some u' =>
          rw [matchFully_stored hne' hx', matchFully_stored hne hx',
            matchFully_followed (hs.concrete x u' hx') hu]
          exact (hs.alikeOff_univ (hs.captures x u' hx') u b b').note_both (Set.mem_univ x) _ _
    | _ => cases hconcrete

/-- **A reference in the candidate** is matched like what it stands for. -/
theorem Definite.alikeOff_follow_candidate (hs : s.Definite) (hv : v.captures = []) (w : Term)
    (b b' : Binding) :
    AlikeOff Set.univ (matchFully s v w b) (matchFully s v (s.follow w) b') := by
  rcases s.follow_cases w with hfollow | ⟨name, u, rfl, hu, hfollow⟩
  · rw [hfollow]
    exact hs.alikeOff_univ hv w b b'
  · rw [hfollow]
    exact hs.alikeOff_stored_candidate hv hu b b'

end Storage

/-! ### Calls with other arguments -/

namespace Listing

variable {f g : Term → Term}

/-- Which named entries are tried does not depend on the values. -/
theorem openingNamed_mapValues (c : Listing Term) (es : List (Entry Term)) :
    openingNamed (c.mapValues g) (es.map (mapEntry f)) =
      (openingNamed c es).map (Prod.map f g) := by
  induction es with
  | nil => rfl
  | cons e es ih =>
    have hname : (mapEntry f e).name? = e.name? := rfl
    rw [List.map_cons, openingNamed, openingNamed, ih, get?_mapValues, hname]
    cases c.get? (e.name?.getD "") <;> rfl

/-- Which pairs are tried does not depend on the values. -/
theorem opening_mapValues (p c : Listing Term) : (p.mapValues f).opening (c.mapValues g) =
    (p.opening c).map (Prod.map f g) := by
  simp only [opening, size_mapValues, isNamed_mapValues]
  split
  · rfl
  · split
    · rfl
    · split
      · exact openingNamed_mapValues c p.entries
      · rw [values_mapValues, values_mapValues, List.zip_map]

end Listing

namespace Matching

variable {s : Storage} {N : Set String} {b b' : Binding} {p c p' c' : Term} {name name' : String}
  {l m : Listing Term} {internal internal' : Option (List (Entry Term))}

/-- **Calls are matched alike** if the arguments that are tried and what is put in their place
are. -/
theorem alikeOff_call {f g : Term → Term}
    (h : ∀ v ∈ l.values, ∀ w ∈ m.values, ∀ b b', b.AgreesOff N b' →
      AlikeOff N (matchFully s v w b) (matchFully s (f v) (g w) b')) (b : Binding) :
    AlikeOff N (matchFully s (.call name l internal) (.call name' m internal') b)
      (matchFully s (.call name (l.mapValues f) internal)
        (.call name' (m.mapValues g) internal') b) := by
  rw [matchFully_shape rfl rfl, matchFully_shape rfl rfl]
  refine alikeOff_matchShape (f := f) (g := g) ?_ ?_ (fun d hd ↦ ?_) (.refl N b)
  · rw [Term.opening, Term.opening, Listing.opening_mapValues]
    split <;> rfl
  · rw [Term.pairing, Term.pairing, Listing.pairing_mapValues]
    split
    · exact Option.isSome_map
    · rfl
  · obtain ⟨hv, hw⟩ := Term.mem_parts_of_opening hd
    exact h d.1 hv d.2 hw

/-- The arguments of a pattern may be replaced by what they stand for. -/
theorem alikeOff_follow_arguments (hs : s.Definite) (hN : Closed s.resolve N)
    (hreferences : ∀ x ∈ (Term.call name l internal).references, x ∈ N)
    (hcaptures : ∀ n ∈ (Term.call name l internal).captures, n ∉ N) (hc : c.reference? = none) :
    AlikeOff N (matchFully s (.call name l internal) c {})
      (matchFully s (.call name (l.mapValues s.follow) internal) c {}) := by
  cases c with
  | call name' m internal' =>
    have hcall : AlikeOff N (matchFully s (.call name l internal) (.call name' m internal') {})
        (matchFully s (.call name (l.mapValues s.follow) internal)
          (.call name' (m.mapValues id) internal') {}) :=
      alikeOff_call (fun v hv w _ b b' hb ↦ hs.alikeOff_follow hN
        (fun x hx ↦ hreferences x (Term.mem_references_of_part hv hx))
        (fun n hn ↦ hcaptures n (Term.mem_captures_of_part hv hn)) hb) {}
    rwa [Listing.mapValues_id] at hcall
  | reference => cases hc
  | _ => exact .error .mismatch

/-- So may the arguments of a candidate. -/
theorem alikeOff_follow_candidate_arguments (hs : s.Definite) (hp : p.captures = [])
    (hreference : p.reference? = none) :
    AlikeOff Set.univ (matchFully s p (.call name l internal) {})
      (matchFully s p (.call name (l.mapValues s.follow) internal) {}) := by
  cases p with
  | call name' m internal' =>
    have hcall : AlikeOff Set.univ
        (matchFully s (.call name' m internal') (.call name l internal) {})
        (matchFully s (.call name' (m.mapValues id) internal')
          (.call name (l.mapValues s.follow) internal) {}) :=
      alikeOff_call (fun v hv w _ b b' _ ↦
        hs.alikeOff_follow_candidate (Term.captures_part hp hv) w b b') {}
    rwa [Listing.mapValues_id] at hcall
  | reference => cases hreference
  | capture => cases hp
  | _ => exact .error .mismatch

/-- Outcomes that are alike are the same as far as matching or failing goes. -/
theorem AlikeOff.matching (h : AlikeOff N (matchFully s p c {}) (matchFully s p' c' {})) :
    (p.matching s c).map Option.isSome = (p'.matching s c').map Option.isSome := by
  rw [matchFully, matchFully] at h
  rw [Term.matching, Term.matching]
  generalize matchWithin s.resolve (depthBound s p c) p c {} = x at h ⊢
  generalize matchWithin s.resolve (depthBound s p' c') p' c' {} = y at h ⊢
  cases h with
  | ok => rfl
  | error e => cases e <;> rfl

end Matching

namespace Term

variable {s : Storage} {p c : Term} {name : String} {l : Listing Term}
  {internal : Option (List (Entry Term))}

/-- A yes or no is what is left of an outcome. -/
theorem matches_eq (s : Storage) (p c : Term) :
    p.matches s c = ((p.matching s c).map Option.isSome).toOption.getD false := by
  rw [Term.matches]
  cases p.matching s c with
  | error e => rfl
  | ok m => cases m <;> rfl

/-- **A pattern is matched like the one with the terms in it that its arguments stand for**: it
matches, or fails with an error, in the same cases. None of its captures may have the name of a
reference that is met in it. -/
theorem matching_follow (hs : s.Definite) (hapart : s.Apart (call name l internal))
    (hc : c.reference? = none) :
    ((call name l internal).matching s c).map Option.isSome =
      ((call name (l.mapValues s.follow) internal).matching s c).map Option.isSome :=
  (Matching.alikeOff_follow_arguments hs (Reaches.closed s.resolve _) (fun _ ↦ .of_mem)
    (fun n hn ↦ hapart n (.inl hn)) hc).matching

/-- **A candidate is matched like the one with the terms in it that its arguments stand for**, by a
pattern without captures. -/
theorem matching_follow_candidate (hs : s.Definite) (hp : p.captures = [])
    (hreference : p.reference? = none) :
    (p.matching s (call name l internal)).map Option.isSome =
      (p.matching s (call name (l.mapValues s.follow) internal)).map Option.isSome :=
  (Matching.alikeOff_follow_candidate_arguments hs hp hreference).matching

end Term

end TermRegistry
