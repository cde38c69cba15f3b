import TermRegistry.Proofs.Application.Substitution
import TermRegistry.Proofs.Dedup.Resolution
import TermRegistry.Proofs.Matching.Reflexivity

/-!
# What rules derive can be written

Where the entries of a context can be written, so can whatever its rules make of them
(`Context.isWellFormed_of_apply`). A match binds the whole candidate, parts of it, and parts of
stored terms, whatever the pattern is; extra bindings and successors are texts; and a substitution
changes neither the labels of a target nor the form of its listings, so that it is enough for each
term that is put in to be written on its own.
-/

namespace TermRegistry

/-! ### Substitution -/

namespace Term

variable {f : String → Term}

/-- Replacing references does not show in the labels and modifiers of entries. -/
theorem label_replaceReferencesEntries (f : String → Term) (es : List (Entry Term)) :
    (replaceReferencesEntries f es).map (fun e ↦ (e.label, e.modifiers)) =
      es.map fun e ↦ (e.label, e.modifiers) := by
  induction es with
  | nil => rfl
  | cons e es ih => rw [replaceReferencesEntries, List.map_cons, List.map_cons, ih]

/-- A test of labels and modifiers is not changed by replacing references. -/
theorem all_replaceReferencesEntries (P : Label × List String → Bool) (es : List (Entry Term)) :
    (replaceReferencesEntries f es).all (fun e ↦ P (e.label, e.modifiers)) =
      es.all fun e ↦ P (e.label, e.modifiers) := by
  have h := congrArg (List.all · P) (label_replaceReferencesEntries f es)
  rwa [List.all_map, List.all_map] at h

theorem areStatements_replaceReferences (es : List (Entry Term)) :
    Listing.areStatements (replaceReferencesEntries f es) = Listing.areStatements es :=
  all_replaceReferencesEntries
    (fun l ↦ l.1.name?.isSome && (l.1.type?.isSome || l.2.isEmpty)) es

theorem areParameters_replaceReferences (es : List (Entry Term)) :
    Listing.areParameters (replaceReferencesEntries f es) = Listing.areParameters es := by
  have hparameters : (replaceReferencesEntries f es).all Entry.isParameter =
      es.all Entry.isParameter :=
    all_replaceReferencesEntries (fun l ↦ l.1.type?.isNone && l.2.isEmpty) es
  have huniform : Listing.Uniform (replaceReferencesEntries f es) ↔ Listing.Uniform es := by
    have hlabels := congrArg (List.map Prod.fst) (label_replaceReferencesEntries f es)
    rw [List.map_map, List.map_map] at hlabels
    exact Listing.uniform_congr hlabels
  rw [Listing.areParameters, Listing.areParameters, hparameters]
  simp only [huniform]

mutual

/-- **A term in which written terms are put in for references can be written.** -/
theorem isWellFormed_replaceReferences (hf : ∀ name, (f name).isWellFormed = true) :
    (t : Term) → t.isWellFormed = true → (t.replaceReferences f).isWellFormed = true
  | text _, _ => rfl
  | reference name, _ => hf name
  | capture _, h => h
  | array items, h => allWellFormed_replaceReferences hf items h
  | listing _, h => nomatch h
  | call name ⟨es, form⟩ none, h => by
    simp only [isWellFormed, Bool.and_eq_true] at h
    simp only [replaceReferences, isWellFormed, Bool.and_eq_true, areParameters_replaceReferences]
    exact ⟨h.1, entriesWellFormed_replaceReferences hf es h.2⟩
  | call name ⟨es, form⟩ (some is), h => by
    simp only [isWellFormed, Bool.and_eq_true] at h
    obtain ⟨⟨⟨hes, hvalues⟩, his⟩, hinside⟩ := h
    simp only [replaceReferences, isWellFormed, Bool.and_eq_true, areParameters_replaceReferences,
      areStatements_replaceReferences]
    exact ⟨⟨⟨hes, entriesWellFormed_replaceReferences hf es hvalues⟩, his⟩,
      entriesWellFormed_replaceReferences hf is hinside⟩
  | rule source target, h => by
    rw [isWellFormed, Bool.and_eq_true] at h
    rw [replaceReferences, isWellFormed, isWellFormed_replaceReferences hf source h.1,
      isWellFormed_replaceReferences hf target h.2]
    rfl

theorem allWellFormed_replaceReferences (hf : ∀ name, (f name).isWellFormed = true) :
    (ts : List Term) → allWellFormed ts = true →
      allWellFormed (replaceReferencesAll f ts) = true
  | [], _ => rfl
  | t :: ts, h => by
    rw [allWellFormed, Bool.and_eq_true] at h
    rw [replaceReferencesAll, allWellFormed, isWellFormed_replaceReferences hf t h.1,
      allWellFormed_replaceReferences hf ts h.2]
    rfl

theorem entriesWellFormed_replaceReferences (hf : ∀ name, (f name).isWellFormed = true) :
    (es : List (Entry Term)) → entriesWellFormed es = true →
      entriesWellFormed (replaceReferencesEntries f es) = true
  | [], _ => rfl
  | ⟨_, _, t⟩ :: es, h => by
    rw [entriesWellFormed, Bool.and_eq_true] at h
    rw [replaceReferencesEntries, entriesWellFormed, isWellFormed_replaceReferences hf t h.1,
      entriesWellFormed_replaceReferences hf es h.2]
    rfl

end

/-- **What is substituted can be written**, if the target and whatever is given can be. -/
theorem isWellFormed_of_substitute {given : String → Option Term} {t u : Term}
    (ht : t.isWellFormed = true) (hgiven : ∀ name v, given name = some v → v.isWellFormed = true)
    (h : t.substitute given = .ok u) : u.isWellFormed = true := by
  have hfill (name : String) : (fill given name).isWellFormed = true := by
    rw [fill]
    cases hname : given name with
    | none => rfl
    | some v => exact hgiven name v hname
  rw [substitute_eq, pruned_of_isWellFormed t ht] at h
  cases hfault : t.fault? given with
  | some e =>
    rw [hfault] at h
    cases h
  | none =>
    rw [hfault] at h
    cases h
    exact isWellFormed_replaceReferences hfill t ht

end Term

/-! ### Bindings -/

namespace Binding

/-- **Legible bindings** bind nothing but terms that can be written. -/
def Legible (b : Binding) : Prop := ∀ name t, b.get? name = some t → t.isWellFormed = true

variable {b b' : Binding} {name : String} {t : Term}

theorem legible_empty : ({} : Binding).Legible := nofun

theorem Legible.insert (hb : b.Legible) (ht : t.isWellFormed = true) (name : String) :
    (b.insert name t).Legible := by
  intro n u hu
  rw [get?_insert] at hu
  split at hu
  · cases hu
    exact ht
  · exact hb n u hu

theorem Legible.note (hb : b.Legible) (ht : t.isWellFormed = true) (name : String) :
    (b.note name t).Legible := by
  rw [Binding.note]
  split
  · exact hb
  · exact hb.insert ht name

theorem Legible.bind? (hb : b.Legible) (ht : t.isWellFormed = true)
    (h : b.bind? name t = some b') : b'.Legible := by
  rcases bind?_eq_some.1 h with ⟨-, rfl⟩ | ⟨-, rfl⟩
  · exact hb
  · exact hb.insert ht name

theorem legible_ofList {entries : List (String × Term)}
    (h : ∀ e ∈ entries, e.2.isWellFormed = true) : (ofList entries).Legible := by
  have hfold (b : Binding) (hb : b.Legible) :
      (entries.foldl (fun b e ↦ b.insert e.1 e.2) b).Legible := by
    induction entries generalizing b with
    | nil => exact hb
    | cons e es ih =>
      obtain ⟨he, hes⟩ := List.forall_mem_cons.1 h
      exact ih hes _ (hb.insert he e.1)
  exact hfold {} legible_empty

end Binding

/-- **A match binds what can be written**, if that holds of the candidate and of the stored terms.
The pattern plays no part: what it binds stands on the other side. -/
theorem Matching.legible_of_matchWithin {resolve : String → Option Term} {depth : Nat}
    {p c : Term} {b b' : Binding} (h : matchWithin resolve depth p c b = .ok b')
    (hstored : ∀ name u, resolve name = some u → u.isWellFormed = true)
    (hc : c.isWellFormed = true) (hb : b.Legible) : b'.Legible := by
  induction depth generalizing p c b b' with
  | zero => cases h
  | succ depth ih =>
    cases stepped_of_matchWithin h with
    | bound hbind => exact hb.bind? hc hbind
    | same name => exact hb.note hc name
    | stored _ hstep => exact (ih hstep hc hb).note hc _
    | followed _ hu hstep => exact ih hstep (hstored _ _ hu) hb
    | @parts _ _ ds _ _ hds hstep =>
      have hparts (d : Term × Term) (hd : d ∈ ds) : d.2.isWellFormed = true :=
        Term.isWellFormed_part hc (Term.mem_parts_of_pairing hds hd).2
      clear hds h
      induction ds generalizing b with
      | nil =>
        cases hstep
        exact hb
      | cons d ds ihds =>
        obtain ⟨b₁, hd, hrest⟩ := bind_eq_ok.1 hstep
        obtain ⟨hd₂, hds⟩ := List.forall_mem_cons.1 hparts
        exact ihds (ih hd hd₂ hb) hrest hds

/-! ### Rules -/

namespace Context

variable {ctx : Context} {b extra : Binding} {r : Rule} {source t : Term}

/-- What fills a reference of a target can be written. -/
theorem Legible.filling (h : ctx.Legible) (hb : b.Legible) (hextra : extra.Legible)
    {name : String} (ht : ctx.filling b extra name = some t) : t.isWellFormed = true := by
  rw [Context.filling, Option.or_eq_some_iff, Option.or_eq_some_iff, Option.or_eq_some_iff,
    Option.or_eq_some_iff] at ht
  rcases ht with ht | ⟨-, ht | ⟨-, ht | ⟨-, ht | ⟨-, ht⟩⟩⟩⟩
  · exact hb name t ht
  · exact hextra name t ht
  · -- A successor is a numeral.
    obtain ⟨n, -, ht⟩ := Option.bind_eq_some_iff.1 ht
    split at ht
    · cases ht
    · obtain ⟨u, -, hu⟩ := Option.bind_eq_some_iff.1 ht
      obtain ⟨v, -, hv⟩ := Option.bind_eq_some_iff.1 hu
      split at hv
      · cases hv
        rfl
      · cases hv
  · obtain ⟨k, hk, rfl⟩ := Option.map_eq_some_iff.1 ht
    exact h.found _ _ k hk
  · obtain ⟨k, hk, rfl⟩ := Option.map_eq_some_iff.1 ht
    exact h.found _ _ k hk

/-- A rule yields a term when its source matches and its target is filled. -/
theorem exists_matching_of_apply (h : r.apply ctx.surroundings extra source = .ok (some t)) :
    ∃ b, r.source.matching ctx.storage source = .ok (some b) ∧
      r.target.substitute (ctx.filling b extra) = .ok t := by
  have hmatch := h
  rw [Rule.apply] at hmatch
  obtain ⟨b?, hb, hmatch⟩ := bind_eq_ok.1 hmatch
  cases b? with
  | none => cases hmatch
  | some b =>
    change r.source.matching ctx.storage source = .ok (some b) at hb
    rw [apply_of_matching extra hb] at h
    obtain ⟨u, hu, heq⟩ := map_eq_ok.1 h
    cases heq
    exact ⟨b, hb, hu⟩

/-- **What a rule yields can be written**, in a context whose entries can be, from a rule, a source
and extra bindings that can be. -/
theorem Legible.isWellFormed_of_apply (h : ctx.Legible) (hc : ctx.Coherent)
    (hr : r.toTerm.isWellFormed = true) (hsource : source.isWellFormed = true)
    (hextra : extra.Legible) (ht : r.apply ctx.surroundings extra source = .ok (some t)) :
    t.isWellFormed = true := by
  have hstored (name : String) (u : Term) (hu : ctx.storage.resolve name = some u) :
      u.isWellFormed = true := by
    rw [storage_resolve hc] at hu
    obtain ⟨k, hk, rfl⟩ := Option.map_eq_some_iff.1 hu
    exact h.found _ _ k (find?_of_lookup? hk)
  obtain ⟨b, hmatching, hsubstitute⟩ := exists_matching_of_apply ht
  obtain ⟨b₁, hrun, rfl⟩ := Term.matching_eq_some.1 hmatching
  have hb : b₁.Legible :=
    Matching.legible_of_matchWithin hrun hstored hsource Binding.legible_empty
  exact Term.isWellFormed_of_substitute (Bool.and_eq_true_iff.1 hr).2
    (fun n v hv ↦ h.filling (hb.insert hsource _) hextra hv) hsubstitute

end Context

end TermRegistry
