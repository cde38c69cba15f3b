import TermRegistry.Proofs.Application.Substitution
import TermRegistry.Proofs.Matching.Equivalence
import TermRegistry.Proofs.Matching.Order

/-!
# Matching a pattern and instantiating it

A pattern without references can be turned into the target that restores what it matched: each of
its captures becomes the reference of the same name. Applied to a candidate that the pattern
matches, such a rule yields the instance of the pattern, which has each capture replaced by the term
that was bound to it (`Term.replaceCaptures`). The pattern matches its instance in turn, and binds
the same terms (`Context.applyRule_instance`).

The instance need not be the candidate. An array pattern may have left out items at the end, a call
may have more parameters than the pattern names, and the candidate may have been seen through
references. But the candidate's terms stand in the instance where captures stand in the pattern, so
matching comes to each of them before it looks at what it is: no reference in it is followed.

**Internal listings.** Matching does not look into internal listings, but substitution does. A
capture in there would be left without a term, so the pattern has none.
-/

namespace TermRegistry

namespace Term

variable {f g : String → Term} {t v : Term} {name : String}

/-! ### Replacing captures -/

mutual

/-- **The instance of a pattern**: the term with each capture in it replaced, those in internal
listings included. -/
def replaceCaptures (f : String → Term) : Term → Term
  | text s => text s
  | reference name => reference name
  | capture name => f name
  | array items => array (replaceCapturesAll f items)
  | listing ⟨entries, form⟩ => listing ⟨replaceCapturesEntries f entries, form⟩
  | call name ⟨entries, form⟩ none => call name ⟨replaceCapturesEntries f entries, form⟩ none
  | call name ⟨entries, form⟩ (some internal) =>
    call name ⟨replaceCapturesEntries f entries, form⟩ (some (replaceCapturesEntries f internal))
  | rule source target => rule (source.replaceCaptures f) (target.replaceCaptures f)

/-- Some terms with each capture in them replaced. -/
def replaceCapturesAll (f : String → Term) : List Term → List Term
  | [] => []
  | t :: ts => t.replaceCaptures f :: replaceCapturesAll f ts

/-- Some entries with each capture in their values replaced. -/
def replaceCapturesEntries (f : String → Term) : List (Entry Term) → List (Entry Term)
  | [] => []
  | ⟨label, modifiers, t⟩ :: es =>
    ⟨label, modifiers, t.replaceCaptures f⟩ :: replaceCapturesEntries f es

end

theorem replaceCapturesAll_eq (f : String → Term) (ts : List Term) :
    replaceCapturesAll f ts = ts.map (replaceCaptures f) := by
  induction ts with
  | nil => rfl
  | cons t ts ih => rw [replaceCapturesAll, ih, List.map_cons]

theorem replaceCapturesEntries_eq (f : String → Term) (es : List (Entry Term)) :
    replaceCapturesEntries f es = es.map (Listing.mapEntry (replaceCaptures f)) := by
  induction es with
  | nil => rfl
  | cons e es ih =>
    rw [replaceCapturesEntries, ih, List.map_cons]
    rfl

mutual

/-- Captures can be replaced by way of references, where there are no others. -/
theorem replaceReferences_replaceCaptures (f : String → Term) : (t : Term) →
    (∀ n, reference n ∉ t.blanks) →
      (t.replaceCaptures reference).replaceReferences f = t.replaceCaptures f
  | text _, _ | capture _, _ => rfl
  | reference name, h => absurd List.mem_cons_self (h name)
  | array items, h => congrArg array (replaceReferencesAll_replaceCapturesAll f items h)
  | listing ⟨entries, form⟩, h => by
    rw [replaceCaptures, replaceReferences, replaceCaptures,
      replaceReferencesEntries_replaceCapturesEntries f entries h]
  | call name ⟨entries, form⟩ none, h => by
    rw [replaceCaptures, replaceReferences, replaceCaptures,
      replaceReferencesEntries_replaceCapturesEntries f entries h]
  | call name ⟨entries, form⟩ (some internal), h => by
    rw [replaceCaptures, replaceReferences, replaceCaptures,
      replaceReferencesEntries_replaceCapturesEntries f entries fun n hn ↦
        h n (List.mem_append_left _ hn),
      replaceReferencesEntries_replaceCapturesEntries f internal fun n hn ↦
        h n (List.mem_append_right _ hn)]
  | rule source target, h => by
    rw [replaceCaptures, replaceReferences, replaceCaptures,
      replaceReferences_replaceCaptures f source fun n hn ↦ h n (List.mem_append_left _ hn),
      replaceReferences_replaceCaptures f target fun n hn ↦ h n (List.mem_append_right _ hn)]

theorem replaceReferencesAll_replaceCapturesAll (f : String → Term) : (ts : List Term) →
    (∀ n, reference n ∉ blanksAll ts) →
      replaceReferencesAll f (replaceCapturesAll reference ts) = replaceCapturesAll f ts
  | [], _ => rfl
  | t :: ts, h => by
    rw [replaceCapturesAll, replaceReferencesAll, replaceCapturesAll,
      replaceReferences_replaceCaptures f t fun n hn ↦ h n (List.mem_append_left _ hn),
      replaceReferencesAll_replaceCapturesAll f ts fun n hn ↦ h n (List.mem_append_right _ hn)]

theorem replaceReferencesEntries_replaceCapturesEntries (f : String → Term) :
    (es : List (Entry Term)) → (∀ n, reference n ∉ blanksEntries es) →
      replaceReferencesEntries f (replaceCapturesEntries reference es) =
        replaceCapturesEntries f es
  | [], _ => rfl
  | ⟨_, _, t⟩ :: es, h => by
    rw [replaceCapturesEntries, replaceReferencesEntries, replaceCapturesEntries,
      replaceReferences_replaceCaptures f t fun n hn ↦ h n (List.mem_append_left _ hn),
      replaceReferencesEntries_replaceCapturesEntries f es fun n hn ↦
        h n (List.mem_append_right _ hn)]

end

mutual

/-- **Only the captures of a term matter** for what they are replaced by. -/
theorem replaceCaptures_congr : (t : Term) → (∀ n, capture n ∈ t.blanks → f n = g n) →
    t.replaceCaptures f = t.replaceCaptures g
  | text _, _ | reference _, _ => rfl
  | capture name, h => h name List.mem_cons_self
  | array items, h => congrArg array (replaceCapturesAll_congr items h)
  | listing ⟨entries, form⟩, h => by
    rw [replaceCaptures, replaceCaptures, replaceCapturesEntries_congr entries h]
  | call name ⟨entries, form⟩ none, h => by
    rw [replaceCaptures, replaceCaptures, replaceCapturesEntries_congr entries h]
  | call name ⟨entries, form⟩ (some internal), h => by
    rw [replaceCaptures, replaceCaptures,
      replaceCapturesEntries_congr entries fun n hn ↦ h n (List.mem_append_left _ hn),
      replaceCapturesEntries_congr internal fun n hn ↦ h n (List.mem_append_right _ hn)]
  | rule source target, h => by
    rw [replaceCaptures, replaceCaptures,
      replaceCaptures_congr source fun n hn ↦ h n (List.mem_append_left _ hn),
      replaceCaptures_congr target fun n hn ↦ h n (List.mem_append_right _ hn)]

theorem replaceCapturesAll_congr : (ts : List Term) →
    (∀ n, capture n ∈ blanksAll ts → f n = g n) →
      replaceCapturesAll f ts = replaceCapturesAll g ts
  | [], _ => rfl
  | t :: ts, h => by
    rw [replaceCapturesAll, replaceCapturesAll,
      replaceCaptures_congr t fun n hn ↦ h n (List.mem_append_left _ hn),
      replaceCapturesAll_congr ts fun n hn ↦ h n (List.mem_append_right _ hn)]

theorem replaceCapturesEntries_congr : (es : List (Entry Term)) →
    (∀ n, capture n ∈ blanksEntries es → f n = g n) →
      replaceCapturesEntries f es = replaceCapturesEntries g es
  | [], _ => rfl
  | ⟨_, _, t⟩ :: es, h => by
    rw [replaceCapturesEntries, replaceCapturesEntries,
      replaceCaptures_congr t fun n hn ↦ h n (List.mem_append_left _ hn),
      replaceCapturesEntries_congr es fun n hn ↦ h n (List.mem_append_right _ hn)]

end

/-- What a blank of a pattern leaves in its instances. -/
def instanceBlanks (f : String → Term) : Term → List Term
  | capture name => (f name).blanks
  | u => [u]

mutual

/-- The blanks of an instance are those of the terms that stand in it for captures, and the
references of the pattern. -/
theorem blanks_replaceCaptures (f : String → Term) : (t : Term) →
    (t.replaceCaptures f).blanks = t.blanks.flatMap (instanceBlanks f)
  | text _ => rfl
  | reference _ | capture _ => (List.flatMap_singleton _ _).symm
  | array items => blanksAll_replaceCapturesAll f items
  | listing ⟨entries, _⟩ => blanksEntries_replaceCapturesEntries f entries
  | call _ ⟨entries, _⟩ none => blanksEntries_replaceCapturesEntries f entries
  | call _ ⟨entries, _⟩ (some internal) => by
    rw [replaceCaptures, blanks, blanks, List.flatMap_append,
      blanksEntries_replaceCapturesEntries f entries,
      blanksEntries_replaceCapturesEntries f internal]
  | rule source target => by
    rw [replaceCaptures, blanks, blanks, List.flatMap_append, blanks_replaceCaptures f source,
      blanks_replaceCaptures f target]

theorem blanksAll_replaceCapturesAll (f : String → Term) : (ts : List Term) →
    blanksAll (replaceCapturesAll f ts) = (blanksAll ts).flatMap (instanceBlanks f)
  | [] => rfl
  | t :: ts => by
    rw [replaceCapturesAll, blanksAll, blanksAll, List.flatMap_append, blanks_replaceCaptures f t,
      blanksAll_replaceCapturesAll f ts]

theorem blanksEntries_replaceCapturesEntries (f : String → Term) : (es : List (Entry Term)) →
    blanksEntries (replaceCapturesEntries f es) = (blanksEntries es).flatMap (instanceBlanks f)
  | [] => rfl
  | ⟨_, _, t⟩ :: es => by
    rw [replaceCapturesEntries, blanksEntries, blanksEntries, List.flatMap_append,
      blanks_replaceCaptures f t, blanksEntries_replaceCapturesEntries f es]

end

/-- **A pattern with references for its captures has no fault** where something is given for each
capture, if it had no references before. -/
theorem fault?_replaceCaptures {given : String → Option Term} (ht : ∀ n, reference n ∉ t.blanks)
    (hgiven : ∀ n, capture n ∈ t.blanks → ∃ u, given n = some u) :
    (t.replaceCaptures reference).fault? given = none := by
  have hblank (u : Term) (hu : u ∈ (t.replaceCaptures reference).blanks) :
      u.capture? = none ∧ ∀ n, u = reference n → capture n ∈ t.blanks := by
    rw [blanks_replaceCaptures] at hu
    obtain ⟨w, hw, hu⟩ := List.mem_flatMap.1 hu
    cases w with
    | capture name =>
      obtain rfl := List.mem_singleton.1 hu
      exact ⟨rfl, fun n hn ↦ by cases hn; exact hw⟩
    | reference name => exact absurd hw (ht name)
    | _ =>
      obtain rfl := List.mem_singleton.1 hu
      exact ⟨rfl, nofun⟩
  rw [← Option.not_isSome_iff_eq_none, isSome_fault?, hasCapture_eq, List.any_eq_true]
  rintro (⟨u, hu, hcapture⟩ | ⟨n, hn, hnone⟩)
  · rw [(hblank u hu).1] at hcapture
    cases hcapture
  · obtain ⟨u, hu⟩ := hgiven n ((hblank _ hn).2 n rfl)
    rw [hnone] at hu
    cases hu

mutual

/-- What stands for captures has nothing to prune if all that is put in has not. -/
theorem pruned_replaceCaptures (hf : ∀ n, (f n).pruned = f n) : (t : Term) →
    (t.replaceCaptures f).pruned = t.pruned.replaceCaptures f
  | text _ | reference _ => rfl
  | capture name => hf name
  | array items => congrArg array (prunedAll_replaceCapturesAll hf items)
  | listing ⟨entries, form⟩ => by
    rw [replaceCaptures, pruned, pruned, replaceCaptures,
      prunedEntries_replaceCapturesEntries hf entries]
  | call name ⟨entries, form⟩ none => by
    rw [replaceCaptures, pruned, pruned, replaceCaptures,
      prunedEntries_replaceCapturesEntries hf entries]
  | call name ⟨entries, form⟩ (some internal) => by
    rw [replaceCaptures, pruned, pruned, replaceCaptures,
      prunedEntries_replaceCapturesEntries hf entries,
      prunedEntries_replaceCapturesEntries hf internal]
  | rule source target => by
    rw [replaceCaptures, pruned, pruned, replaceCaptures, pruned_replaceCaptures hf source,
      pruned_replaceCaptures hf target]

theorem prunedAll_replaceCapturesAll (hf : ∀ n, (f n).pruned = f n) : (ts : List Term) →
    prunedAll (replaceCapturesAll f ts) = replaceCapturesAll f (prunedAll ts)
  | [] => rfl
  | t :: ts => congrArg₂ _ (pruned_replaceCaptures hf t) (prunedAll_replaceCapturesAll hf ts)

theorem prunedEntries_replaceCapturesEntries (hf : ∀ n, (f n).pruned = f n) :
    (es : List (Entry Term)) →
      prunedEntries (replaceCapturesEntries f es) = replaceCapturesEntries f (prunedEntries es)
  | [] => rfl
  | ⟨_, _, t⟩ :: es => by
    rw [replaceCapturesEntries, prunedEntries, prunedEntries, replaceCapturesEntries,
      pruned_replaceCaptures hf t, prunedEntries_replaceCapturesEntries hf es]

end

/-! ### Blanks that matching looks at -/

theorem blanksAll_eq (ts : List Term) : blanksAll ts = ts.flatMap blanks := by
  induction ts with
  | nil => rfl
  | cons t ts ih => rw [blanksAll, ih, List.flatMap_cons]

theorem blanksEntries_eq (es : List (Entry Term)) :
    blanksEntries es = (es.map (·.value)).flatMap blanks := by
  induction es with
  | nil => rfl
  | cons e es ih => rw [blanksEntries, ih, List.map_cons, List.flatMap_cons]

/-- The blanks of a term are those of its parts and of its internal listing, or it is one. -/
theorem mem_blanks {u : Term} : u ∈ t.blanks ↔ u = t ∧ t.mark?.isSome = true ∨
    (∃ v ∈ t.parts, u ∈ v.blanks) ∨ ∃ es, t.internal? = some es ∧ u ∈ blanksEntries es := by
  cases t with
  | call name l internal =>
    cases internal <;> simp [blanks, blanksEntries_eq, mark?, parts, internal?, Listing.values]
  | _ => simp [blanks, blanksAll_eq, blanksEntries_eq, mark?, parts, internal?, Listing.values]

theorem mem_blanks_of_part {u : Term} (hv : v ∈ t.parts) (h : u ∈ v.blanks) : u ∈ t.blanks :=
  mem_blanks.2 (.inr (.inl ⟨v, hv, h⟩))

/-- A term without references among its blanks exposes none. -/
theorem references_eq_nil (h : ∀ n, reference n ∉ t.blanks) : t.references = [] := by
  refine List.eq_nil_iff_forall_not_mem.2 ?_
  induction t using induction_parts with
  | h t ih =>
    intro name hname
    rcases mem_references_cases hname with rfl | ⟨v, hv, hname⟩
    · exact h name List.mem_cons_self
    · exact ih v hv (fun n hn ↦ h n (mem_blanks_of_part hv hn)) name hname

/-- A capture that stands in no internal listing is exposed. -/
theorem mem_captures_of_mem_blanks (h : capture name ∈ t.blanks)
    (ht : ∀ es ∈ t.internals, anyEntryCapture es = false) : name ∈ t.captures := by
  induction t using induction_parts with
  | h t ih =>
    rcases mem_blanks.1 h with ⟨rfl, -⟩ | ⟨v, hv, h⟩ | ⟨es, hes, h⟩
    · exact mem_captures_self name
    · refine mem_captures_of_part hv (ih v hv h fun es hes ↦ ?_)
      obtain ⟨u, hu, hinternal⟩ := List.mem_filterMap.1 hes
      exact ht es (List.mem_filterMap.2 ⟨u, mem_exposed_of_part hv hu, hinternal⟩)
    · have hfree := ht es (List.mem_filterMap.2 ⟨t, mem_exposed.2 (.inl rfl), hes⟩)
      rw [anyEntryCapture_eq_blanks] at hfree
      exact absurd rfl (List.any_eq_false.1 hfree _ h)

/-- Captures that can be written have a name. -/
theorem ne_empty_of_mem_captures (hwritten : t.isWellFormed = true) (h : name ∈ t.captures) :
    name ≠ "" := by
  induction t using induction_parts with
  | h t ih =>
    rcases mem_captures_cases h with rfl | ⟨v, hv, h⟩
    · rintro rfl
      cases hwritten
    · exact ih v hv (isWellFormed_part hwritten hv) h

/-- Terms that can be written are tidy if no name stands twice in them. -/
theorem isTidy_of_isDistinct (hwritten : t.isWellFormed = true) (h : t.IsDistinct) :
    t.IsTidy := by
  induction t using induction_parts with
  | h t ih =>
    exact isTidy_iff.2 ⟨⟨uniform_of_isWellFormed hwritten, h.entries⟩,
      fun v hv ↦ ih v hv (isWellFormed_part hwritten hv) (h.part hv)⟩

/-! ### Matching an instance -/

/-- **A pattern is paired with its instance** part by part. -/
theorem pairing_replaceCaptures (hconcrete : t.isConcrete = true)
    (ht : Listing.Distinct t.entries) (f : String → Term) :
    t.pairing (t.replaceCaptures f) = some (t.parts.map fun v ↦ (v, v.replaceCaptures f)) := by
  have hlisting (l : Listing Term) (hl : Listing.Distinct l.entries) :
      l.pairing ⟨replaceCapturesEntries f l.entries, l.form⟩ =
        some (l.values.map fun v ↦ (v, v.replaceCaptures f)) := by
    -- The names and the form of a listing stay, so each entry is paired with the entry it has
    -- become, as in a listing that is paired with itself.
    have hself := Listing.pairing_mapValues_self hl id (replaceCaptures f)
    rw [l.mapValues_id] at hself
    rw [replaceCapturesEntries_eq]
    exact hself
  cases t with
  | reference | capture => cases hconcrete
  | text s => exact if_pos rfl
  | array items =>
    have hfits : Matching.fits items (items.map (replaceCaptures f)) = true := by
      simp [Matching.fits]
    have hzip : (items.map id).zip (items.map (replaceCaptures f)) =
        items.map fun v ↦ (v, v.replaceCaptures f) := List.zip_map'
    rw [List.map_id] at hzip
    rw [replaceCaptures, replaceCapturesAll_eq, pairing, if_pos hfits, hzip]
    rfl
  | listing l => exact hlisting l ht
  | call name l internal =>
    cases internal with
    | none => exact (if_pos rfl).trans (hlisting l ht)
    | some es => exact (if_pos rfl).trans (hlisting l ht)
  | rule => rfl

end Term

open Matching in
/-- **A pattern without references matches its instances**, from each binding that agrees with what
the captures were replaced by. -/
theorem Matching.matchWithin_replaceCaptures {resolve : String → Option Term} {depth : Nat}
    {p : Term} {b : Binding} {f : String → Term} (hdepth : p.size ≤ depth)
    (hp : p.references = []) (ht : p.IsTidy) (hb : AgreesOff ∅ (fun n ↦ some (f n)) b) :
    ∃ b', matchWithin resolve depth p (p.replaceCaptures f) b = .ok b' ∧
      AgreesOff ∅ (fun n ↦ some (f n)) b' := by
  induction depth generalizing p b with
  | zero => exact absurd p.size_pos hdepth.not_gt
  | succ depth ih =>
    -- A capture is bound to what it was replaced by, which agrees with the binding there is. All
    -- else is paired part by part with what its parts have become.
    cases hconcrete : p.isConcrete with
    | false =>
      cases p with
      | reference name => cases hp
      | capture name =>
        obtain ⟨b', hbind, hb'⟩ := hb.bind? (Set.notMem_empty name) rfl
        exact ⟨b', orMismatch_eq_ok.2 hbind, hb'⟩
      | _ => cases hconcrete
    | true =>
      have hpairing := Term.pairing_replaceCaptures hconcrete ht.entries f
      have hcandidate := (Term.isConcrete_of_pairing hpairing).2
      rw [matchWithin_shape hconcrete (Term.reference?_of_isConcrete hcandidate),
        matchShape_eq hpairing]
      refine matchPairs_of_forall (fun d hd b hb ↦ ?_) hb
      obtain ⟨v, hv, rfl⟩ := List.mem_map.1 hd
      have hreferences : v.references = [] := List.eq_nil_iff_forall_not_mem.2 fun n hn ↦
        List.eq_nil_iff_forall_not_mem.1 hp n (Term.mem_references_of_part hv hn)
      exact ih (Nat.le_of_lt_succ ((Term.size_lt_of_mem_parts hv).trans_le hdepth)) hreferences
        (ht.part hv) hb

/-- **A pattern without references binds its captures** and nothing else but the whole candidate. -/
theorem Term.isSome_get?_of_matching {s : Storage} {p c : Term} {b : Binding}
    (h : p.matching s c = .ok (some b)) (hp : p.references = []) {n : String} (hn : n ≠ "") :
    (b.get? n).isSome = true ↔ n ∈ p.captures := by
  obtain ⟨b₁, hrun, rfl⟩ := matching_eq_some.1 h
  have hplain : Plain s.resolve ∅ := ⟨nofun, nofun⟩
  have hwhole : n ≠ Binding.wholeName := hn
  rw [Binding.get?_insert_of_ne hwhole]
  constructor
  · intro hbound
    have hnone : ∀ x ∈ p.references, x ∈ (∅ : Set String) := by
      rw [hp]
      exact nofun
    rcases Matching.bound_of_matchWithin hrun hplain hnone hbound with hempty | hcapture | hnone
    · cases hempty
    · exact hcapture
    · exact hnone.elim
  · intro hcapture
    exact Option.isSome_iff_exists.2 ((Matching.relates_of_matchWithin hrun).2.assigned hcapture)

/-! ### The rule that restores what a pattern matched -/

/-- **Matching and then instantiating.** Take a pattern that can be written, without references,
without repeated names in a listing and without captures in internal listings, and the rule whose
target has references where the pattern has captures. Applied to a candidate that the pattern
matches, it yields the instance of the pattern under what the match bound, whatever extra bindings
and entries of the context there are. The pattern matches this instance and binds the same terms. -/
theorem Context.applyRule_instance (ctx : Context) (rules : RuleSet) (name : String) (p : Term)
    (hr : rules.get? name = some ⟨p, p.replaceCaptures .reference⟩)
    (hwritten : p.isWellFormed = true) (hreferences : ∀ n, .reference n ∉ p.blanks)
    (hdistinct : p.IsDistinct) (hinternals : ∀ es ∈ p.internals, Term.anyEntryCapture es = false)
    (c : Term) (b : Binding) (hb : p.matching ctx.storage c = .ok (some b)) (extra : Binding) :
    ∃ t b', (ctx.applyRule rules name c extra).result = .ok (some t) ∧
      (∀ n ∈ p.captures, ∃ u, b.get? n = some u) ∧
      t = p.replaceCaptures (fun n ↦ (b.get? n).getD (.capture n)) ∧
      p.matching ctx.storage t = .ok (some b') ∧ b'.whole? = some t ∧
      ∀ n, n ≠ "" → b'.get? n = b.get? n := by
  have hnone := Term.references_eq_nil hreferences
  have hcaptures (n : String) (hn : .capture n ∈ p.blanks) : n ∈ p.captures :=
    Term.mem_captures_of_mem_blanks hn hinternals
  have hbound (n : String) (hn : n ∈ p.captures) : ∃ u, b.get? n = some u :=
    Option.isSome_iff_exists.1 ((Term.isSome_get?_of_matching hb hnone
      (Term.ne_empty_of_mem_captures hwritten hn)).2 hn)
  have hfilled (n : String) (hn : n ∈ p.captures) : ctx.filling b extra n = b.get? n := by
    obtain ⟨u, hu⟩ := hbound n hn
    rw [filling, hu]
    rfl
  let f : String → Term := fun n ↦ (b.get? n).getD (.capture n)
  have hf (n : String) (u : Term) (hu : b.get? n = some u) : f n = u :=
    (congrArg (Option.getD · (.capture n)) hu).trans Option.getD_some
  -- What is bound is the first that counts, so the target is filled with just that.
  have hresult : (ctx.applyRule rules name c extra).result = .ok (some (p.replaceCaptures f)) := by
    have hpruned : (p.replaceCaptures .reference).pruned = p.replaceCaptures .reference := by
      rw [Term.pruned_replaceCaptures fun _ ↦ rfl, Term.pruned_of_isWellFormed p hwritten]
    have hfault : (p.replaceCaptures .reference).fault? (ctx.filling b extra) = none :=
      Term.fault?_replaceCaptures hreferences fun n hn ↦
        hfilled n (hcaptures n hn) ▸ hbound n (hcaptures n hn)
    have hinstance : p.replaceCaptures (Term.fill (ctx.filling b extra)) = p.replaceCaptures f :=
      Term.replaceCaptures_congr p fun n hn ↦ by
        obtain ⟨u, hu⟩ := hbound n (hcaptures n hn)
        rw [Term.fill, hfilled n (hcaptures n hn), hu, hf n u hu, Option.getD_some]
    rw [result_applyRule hr, apply_of_matching extra hb, Term.substitute_eq, hpruned, hfault,
      Term.replaceReferences_replaceCaptures _ p hreferences, hinstance]
    rfl
  have hempty : Matching.AgreesOff ∅ (fun n ↦ some (f n)) {} := fun _ _ _ h ↦ by cases h
  obtain ⟨b₁, hrun, hagrees⟩ := Matching.matchWithin_replaceCaptures
    (Matching.size_le_depthBound ctx.storage p (p.replaceCaptures f)) hnone
    (Term.isTidy_of_isDistinct hwritten hdistinct) hempty
  have hmatch := Term.matching_eq_some.2 ⟨b₁, hrun, rfl⟩
  refine ⟨_, _, hresult, hbound, rfl, hmatch, Binding.get?_insert_self b₁ _ _, fun n hn ↦ ?_⟩
  have hsame := (Term.isSome_get?_of_matching hmatch hnone hn).trans
    (Term.isSome_get?_of_matching hb hnone hn).symm
  have hwhole : n ≠ Binding.wholeName := hn
  rw [Binding.get?_insert_of_ne hwhole] at hsame ⊢
  cases hget : b₁.get? n with
  | none =>
    rw [hget] at hsame
    exact (Option.not_isSome_iff_eq_none.1 fun h ↦ Bool.false_ne_true (hsame.2 h)).symm
  | some u =>
    obtain ⟨v, hv⟩ := Option.isSome_iff_exists.1 (hsame.1 (Option.isSome_iff_exists.2 ⟨u, hget⟩))
    have hu : f n = u := Option.some.inj (hagrees n u (Set.notMem_empty n) hget)
    rw [hv, ← hu, hf n v hv]

/-- A reference and the first of three items are captured; a parameter and the last item are left
out. -/
theorem Context.applyRule_instance_part :
    let v (es : List (Entry Term)) : Term := .call "V" ⟨es, .parameters⟩ none
    let p := v [⟨.named "a", [], .capture "n"⟩,
      ⟨.named "b", [], .array [.capture "m", .text "1"]⟩]
    let rules : RuleSet := ⟨[("same", ⟨p, p.replaceCaptures .reference⟩)], by decide⟩
    let c := v [⟨.named "b", [], .array [.text "2", .text "1", .text "0"]⟩,
      ⟨.named "c", [], .text "3"⟩, ⟨.named "a", [], .reference "x"⟩]
    let t := v [⟨.named "a", [], .reference "x"⟩,
      ⟨.named "b", [], .array [.text "2", .text "1"]⟩]
    ((empty 0 {}).applyRule rules "same" c ⟨[("m", .text "4")]⟩).result = .ok (some t) ∧
      ∃ b, p.matching (empty 0 {}).storage t = .ok (some b) ∧ b.get? "m" = some (.text "2") := by
  intro v p rules c t
  let b : Binding := ⟨[("n", .reference "x"), ("m", .text "2"), ("", c)]⟩
  have hreferences (n : String) : .reference n ∉ p.blanks := by
    show Term.reference n ∉ [.capture "n", .capture "m"]
    simp
  obtain ⟨_, b', hresult, -, rfl, hmatch, -, hget⟩ := applyRule_instance (empty 0 {}) rules "same"
    p rfl (by decide) hreferences (by decide) (by decide) c b rfl ⟨[("m", .text "4")]⟩
  exact ⟨hresult, b', hmatch, hget "m" (by decide)⟩

end TermRegistry
