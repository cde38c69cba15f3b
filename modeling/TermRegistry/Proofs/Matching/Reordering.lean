import TermRegistry.Proofs.Matching.Correctness

/-!
# Named entries in another order

Two terms are reordered into each other when they are equal up to the order of named entries, at any
depth (`Reordered`). Matching looks named entries up by their names, so the order in a pattern makes
no difference to what it matches (`Relates.reorder_pattern`). Nor does the order in a candidate, as
long as no name stands twice in a listing of it and nothing is captured
(`Relates.reorder_candidate`).

The last section is about terms that match each other both ways. Then they have the same names, and
what is left for a capture in one of them to match in the other would have to match the capture in
turn, which only a capture does (`Relates.captures_eq_nil_of_mutual`).
-/

namespace TermRegistry

namespace Listing

/-! ### Rearranged entries -/

/-- The same entries, in another order at most if all of them are named. -/
def Rearranged (es' es : List (Entry Term)) : Prop :=
  es' = es ∨ (∀ e ∈ es, e.name?.isSome = true) ∧ es'.Perm es

/-- Entries with the same labels and modifiers whose values are related, with the named ones in
another order. -/
def ReorderedBy (R : Term → Term → Prop) (es' es : List (Entry Term)) : Prop :=
  ∃ ds : List (Entry Term × Entry Term),
    (∀ d ∈ ds, d.1.label = d.2.label ∧ d.1.modifiers = d.2.modifiers ∧ R d.1.value d.2.value) ∧
      Rearranged (ds.map Prod.fst) es' ∧ Rearranged (ds.map Prod.snd) es

namespace Rearranged

variable {es' es : List (Entry Term)}

/-- What is rearranged is permuted. -/
theorem perm (h : Rearranged es' es) : es'.Perm es := by
  rcases h with rfl | ⟨-, h⟩
  · exact .refl _
  · exact h

end Rearranged

namespace ReorderedBy

variable {R : Term → Term → Prop} {es' es : List (Entry Term)}

/-- Reordering goes both ways, with the values swapped. -/
theorem symm (h : ReorderedBy R es' es) : ReorderedBy (fun v' v ↦ R v v') es es' := by
  obtain ⟨ds, hds, hes', hes⟩ := h
  refine ⟨ds.map Prod.swap, fun e he ↦ ?_, ?_, ?_⟩
  · obtain ⟨d, hd, rfl⟩ := List.mem_map.1 he
    obtain ⟨hlabel, hmodifiers, hvalue⟩ := hds d hd
    exact ⟨hlabel.symm, hmodifiers.symm, hvalue⟩
  · rwa [List.map_map]
  · rwa [List.map_map]

/-- Each entry has its counterpart. -/
theorem exists_of_mem (h : ReorderedBy R es' es) {e' : Entry Term} (he' : e' ∈ es') :
    ∃ e ∈ es, e'.label = e.label ∧ R e'.value e.value := by
  obtain ⟨ds, hds, hes', hes⟩ := h
  obtain ⟨d, hd, rfl⟩ := List.mem_map.1 (hes'.perm.mem_iff.2 he')
  obtain ⟨hlabel, -, hvalue⟩ := hds d hd
  exact ⟨d.2, hes.perm.mem_iff.1 (List.mem_map_of_mem hd), hlabel, hvalue⟩

theorem length_eq (h : ReorderedBy R es' es) : es'.length = es.length := by
  obtain ⟨ds, -, hes', hes⟩ := h
  rw [← hes'.perm.length_eq, ← hes.perm.length_eq, List.length_map, List.length_map]

/-- Reordered entries have the same names. -/
theorem names_perm (h : ReorderedBy R es' es) :
    (es'.filterMap (·.name?)).Perm (es.filterMap (·.name?)) := by
  obtain ⟨ds, hds, hes', hes⟩ := h
  have hnames : (ds.map Prod.fst).filterMap (·.name?) = (ds.map Prod.snd).filterMap (·.name?) := by
    rw [List.filterMap_map, List.filterMap_map]
    exact List.filterMap_congr fun d hd ↦ congrArg Label.name? (hds d hd).1
  exact (hes'.perm.filterMap _).symm.trans (hnames ▸ hes.perm.filterMap _)

/-- Reordered entries are uniform if the others are. -/
theorem uniform (h : ReorderedBy R es' es) (hes : Uniform es) : Uniform es' := by
  refine hes.imp (fun hnamed e' he' ↦ ?_) fun hpositional e' he' ↦ ?_
  · obtain ⟨e, he, hlabel, -⟩ := h.exists_of_mem he'
    rw [Entry.name?, hlabel]
    exact hnamed e he
  · obtain ⟨e, he, hlabel, -⟩ := h.exists_of_mem he'
    rw [Entry.name?, hlabel]
    exact hpositional e he

/-- Reordered entries are distinct if the others are. -/
theorem distinct (h : ReorderedBy R es' es) (hes : Distinct es) : Distinct es' :=
  ⟨h.uniform hes.1, h.names_perm.nodup_iff.2 hes.2⟩

/-- All entries are named on both sides, or the entries stand in the same places. -/
theorem named_or_aligned (h : ReorderedBy R es' es) :
    (∀ e ∈ es', e.name?.isSome = true) ∧ (∀ e ∈ es, e.name?.isSome = true) ∨
      List.Forall₂ (fun e' e ↦ e'.label = e.label ∧ R e'.value e.value) es' es := by
  have hother {R : Term → Term → Prop} {es' es : List (Entry Term)} (h : ReorderedBy R es' es)
      (hes : ∀ e ∈ es, e.name?.isSome = true) : ∀ e ∈ es', e.name?.isSome = true := by
    intro e' he'
    obtain ⟨e, he, hlabel, -⟩ := h.exists_of_mem he'
    rw [Entry.name?, hlabel]
    exact hes e he
  have hall := h
  obtain ⟨ds, hds, hes', hes⟩ := h
  rcases hes' with rfl | ⟨hnamed, -⟩
  · rcases hes with rfl | ⟨hnamed, -⟩
    · right
      rw [List.forall₂_map_left_iff, List.forall₂_map_right_iff, List.forall₂_same]
      exact fun d hd ↦ ⟨(hds d hd).1, (hds d hd).2.2⟩
    · exact .inl ⟨hother hall hnamed, hnamed⟩
  · exact .inl ⟨hnamed, hother hall.symm hnamed⟩

end ReorderedBy

/-! ### What reordered listings are paired with -/

/-- A listing of named entries counts as named unless it is empty. -/
theorem isNamed_of_forall {l : Listing Term} (h : ∀ e ∈ l.entries, e.name?.isSome = true) :
    l.isNamed = !l.isEmpty := by
  obtain ⟨es, form⟩ := l
  cases es with
  | nil => rfl
  | cons e es => exact h e List.mem_cons_self

variable {R : Term → Term → Prop} {p p' c c' : Listing Term} {ds : List (Term × Term)}

/-- A reordered listing is as named as it was. -/
theorem isNamed_of_reorderedBy (h : ReorderedBy R p'.entries p.entries) :
    p'.isNamed = p.isNamed := by
  have hempty : p'.isEmpty = p.isEmpty := by
    rw [isEmpty, isEmpty, Bool.eq_iff_iff, List.isEmpty_iff_length_eq_zero,
      List.isEmpty_iff_length_eq_zero, h.length_eq]
  rcases h.named_or_aligned with ⟨hnamed', hnamed⟩ | haligned
  · rw [isNamed_of_forall hnamed', isNamed_of_forall hnamed, hempty]
  · obtain ⟨es', form'⟩ := p'
    obtain ⟨es, form⟩ := p
    cases haligned with
    | nil => rfl
    | cons he => exact congrArg (Option.isSome ∘ Label.name?) he.1

/-- Terms in the places of related ones are zipped to the same. -/
theorem exists_of_mem_zip_left {vs' vs us : List Term} (h : List.Forall₂ R vs' vs)
    {d' : Term × Term} (hd' : d' ∈ vs'.zip us) : ∃ d ∈ vs.zip us, R d'.1 d.1 ∧ d'.2 = d.2 := by
  induction h generalizing us with
  | nil => cases hd'
  | @cons v' v vs' vs hv _ ih =>
    cases us with
    | nil => cases hd'
    | cons u us =>
      rcases List.mem_cons.1 hd' with rfl | hd'
      · exact ⟨(v, u), List.mem_cons_self, hv, rfl⟩
      · obtain ⟨d, hd, hrel⟩ := ih hd'
        exact ⟨d, List.mem_cons_of_mem _ hd, hrel⟩

theorem exists_of_mem_zip_right {vs' vs us : List Term} (h : List.Forall₂ R vs' vs)
    {d' : Term × Term} (hd' : d' ∈ us.zip vs') : ∃ d ∈ us.zip vs, d'.1 = d.1 ∧ R d'.2 d.2 := by
  have hswap : d'.swap ∈ vs'.zip us := by
    rw [← List.zip_swap, List.mem_map]
    exact ⟨d', hd', rfl⟩
  obtain ⟨d, hd, hrel, heq⟩ := exists_of_mem_zip_left h hswap
  refine ⟨d.swap, ?_, heq, hrel⟩
  rw [← List.zip_swap]
  exact List.mem_map_of_mem hd

/-- Where entries have no names, reordering moves nothing. -/
theorem forall₂_values (h : ReorderedBy R p'.entries p.entries) (hp : p.isNamed = false) :
    List.Forall₂ R p'.values p.values := by
  rw [values, values, List.forall₂_map_left_iff, List.forall₂_map_right_iff]
  rcases h.named_or_aligned with ⟨-, hnamed⟩ | haligned
  · -- All entries are named and the first one is not: there are none.
    rw [isNamed_of_forall hnamed, Bool.not_eq_false'] at hp
    have hnil : p.entries = [] := List.isEmpty_iff.1 hp
    have hnil' : p'.entries = [] := List.length_eq_zero_iff.1 (by rw [h.length_eq, hnil]; rfl)
    rw [hnil, hnil']
    exact .nil
  · exact haligned.imp fun _ _ he ↦ he.2

/-- **A reordered pattern is paired with the same.** -/
theorem pairing_of_reordered_pattern (h : ReorderedBy R p'.entries p.entries)
    (hds : p.pairing c = some ds) :
    ∃ ds', p'.pairing c = some ds' ∧ ∀ d' ∈ ds', ∃ d ∈ ds, R d'.1 d.1 ∧ d'.2 = d.2 := by
  have hnamed' := isNamed_of_reorderedBy h
  rcases pairing_cases hds with ⟨hnil, rfl⟩ | ⟨hsize, hnamed, hpaired⟩
  · have hnil' : p'.entries = [] := List.length_eq_zero_iff.1 (by rw [h.length_eq, hnil]; rfl)
    exact ⟨[], pairing_nil hnil', nofun⟩
  · have hsize' : p'.size ≤ c.size := (Nat.le_of_eq h.length_eq).trans hsize
    rw [pairing_eq hsize' (hnamed'.trans hnamed), hnamed']
    rcases hpaired with ⟨hp, hds⟩ | ⟨hp, rfl⟩
    · -- By names: each entry of the one looks up what its counterpart in the other does.
      rw [hp, if_pos rfl]
      obtain ⟨ds', hds'⟩ := exists_besideNamed.2 fun e' (he' : e' ∈ p'.entries) ↦ by
        obtain ⟨e, he, hlabel, -⟩ := h.exists_of_mem he'
        rw [Entry.name?, hlabel]
        exact exists_besideNamed.1 ⟨ds, hds⟩ e he
      refine ⟨ds', hds', fun d' hd' ↦ ?_⟩
      obtain ⟨e', he', hvalue', hget⟩ := (mem_besideNamed hds').1 hd'
      obtain ⟨e, he, hlabel, hrel⟩ := h.exists_of_mem he'
      rw [Entry.name?, hlabel] at hget
      exact ⟨(e.value, d'.2), (mem_besideNamed hds).2 ⟨e, he, rfl, hget⟩, hvalue' ▸ hrel, rfl⟩
    · -- By places: positional entries have not moved.
      rw [hp, if_neg Bool.false_ne_true]
      exact ⟨_, rfl, fun d' hd' ↦ exists_of_mem_zip_left (forall₂_values h hp) hd'⟩

/-- A name that occurs once is looked up at related values. -/
theorem get?_of_reordered (h : ReorderedBy R c'.entries c.entries)
    (hc : (c.entries.filterMap (·.name?)).Nodup) {name : String} {v : Term}
    (hv : c.get? name = some v) : ∃ v', c'.get? name = some v' ∧ R v' v := by
  obtain ⟨e, he, hname, rfl⟩ := exists_entry_of_get? hv
  obtain ⟨e', he', hlabel, hrel⟩ := h.symm.exists_of_mem he
  refine ⟨e'.value, get?_of_nodup (h.names_perm.nodup_iff.2 hc) he' ?_, hrel⟩
  rw [← hname, Entry.name?, Entry.name?, hlabel]

/-- **A reordered candidate is paired with the same** if no name stands twice in it. -/
theorem pairing_of_reordered_candidate (h : ReorderedBy R c'.entries c.entries)
    (hc : (c.entries.filterMap (·.name?)).Nodup) (hds : p.pairing c = some ds) :
    ∃ ds', p.pairing c' = some ds' ∧ ∀ d' ∈ ds', ∃ d ∈ ds, d'.1 = d.1 ∧ R d'.2 d.2 := by
  have hnamed' := isNamed_of_reorderedBy h
  rcases pairing_cases hds with ⟨hnil, rfl⟩ | ⟨hsize, hnamed, hpaired⟩
  · exact ⟨[], pairing_nil hnil, nofun⟩
  · have hsize' : p.size ≤ c'.size := hsize.trans (Nat.le_of_eq h.length_eq.symm)
    rw [pairing_eq hsize' (hnamed.trans hnamed'.symm)]
    rcases hpaired with ⟨hp, hds⟩ | ⟨hp, rfl⟩
    · rw [hp, if_pos rfl]
      -- By names: what is found for an entry is related to what was found, as no name stands twice.
      have hget (e : Entry Term) (he : e ∈ p.entries) :
          ∃ v v', c.get? (e.name?.getD "") = some v ∧ c'.get? (e.name?.getD "") = some v' ∧
            R v' v := by
        obtain ⟨v, hv⟩ := exists_besideNamed.1 ⟨ds, hds⟩ e he
        obtain ⟨v', hv', hrel⟩ := get?_of_reordered h hc hv
        exact ⟨v, v', hv, hv', hrel⟩
      obtain ⟨ds', hds'⟩ := exists_besideNamed.2 fun e he ↦ by
        obtain ⟨-, v', -, hv', -⟩ := hget e he
        exact ⟨v', hv'⟩
      refine ⟨ds', hds', fun d' hd' ↦ ?_⟩
      obtain ⟨e, he, hvalue, hd⟩ := (mem_besideNamed hds').1 hd'
      obtain ⟨v, v', hv, hv', hrel⟩ := hget e he
      obtain rfl : v' = d'.2 := Option.some.inj (hv'.symm.trans hd)
      exact ⟨(e.value, v), (mem_besideNamed hds).2 ⟨e, he, rfl, hv⟩, hvalue, hrel⟩
    · rw [hp, if_neg Bool.false_ne_true]
      -- By places: positional entries have not moved.
      have hc : c.isNamed = false := hnamed ▸ hp
      exact ⟨_, rfl, fun d' hd' ↦ exists_of_mem_zip_right (forall₂_values h hc) hd'⟩

end Listing

/-! ### Reordered terms -/

open Listing in
/-- **Reordered terms**: they are equal up to the order of named entries, at any depth. -/
inductive Reordered : Term → Term → Prop
  | refl (t : Term) : Reordered t t
  | array (ds : List (Term × Term)) (h : ∀ d ∈ ds, Reordered d.1 d.2) :
    Reordered (.array (ds.map Prod.fst)) (.array (ds.map Prod.snd))
  | listing {es' es : List (Entry Term)} {form : Form} (ds : List (Entry Term × Entry Term))
    (hds : ∀ d ∈ ds, d.1.label = d.2.label ∧ d.1.modifiers = d.2.modifiers)
    (h : ∀ d ∈ ds, Reordered d.1.value d.2.value) (hes' : Rearranged (ds.map Prod.fst) es')
    (hes : Rearranged (ds.map Prod.snd) es) :
    Reordered (.listing ⟨es', form⟩) (.listing ⟨es, form⟩)
  | call {name : String} {es' es : List (Entry Term)} {form : Form}
    (ds : List (Entry Term × Entry Term))
    (hds : ∀ d ∈ ds, d.1.label = d.2.label ∧ d.1.modifiers = d.2.modifiers)
    (h : ∀ d ∈ ds, Reordered d.1.value d.2.value) (hes' : Rearranged (ds.map Prod.fst) es')
    (hes : Rearranged (ds.map Prod.snd) es) :
    Reordered (.call name ⟨es', form⟩ none) (.call name ⟨es, form⟩ none)
  | callWith {name : String} {es' es is' is : List (Entry Term)} {form : Form}
    (ds : List (Entry Term × Entry Term))
    (hds : ∀ d ∈ ds, d.1.label = d.2.label ∧ d.1.modifiers = d.2.modifiers)
    (h : ∀ d ∈ ds, Reordered d.1.value d.2.value) (hes' : Rearranged (ds.map Prod.fst) es')
    (hes : Rearranged (ds.map Prod.snd) es) (js : List (Entry Term × Entry Term))
    (hjs : ∀ j ∈ js, j.1.label = j.2.label ∧ j.1.modifiers = j.2.modifiers)
    (hj : ∀ j ∈ js, Reordered j.1.value j.2.value) (his' : Rearranged (js.map Prod.fst) is')
    (his : Rearranged (js.map Prod.snd) is) :
    Reordered (.call name ⟨es', form⟩ (some is')) (.call name ⟨es, form⟩ (some is))
  | rule {s' s t' t : Term} (hs : Reordered s' s) (ht : Reordered t' t) :
    Reordered (.rule s' t') (.rule s t)

namespace Reordered

variable {t' t : Term}

/-- What reordered terms have in common at their roots. -/
inductive Shape : Term → Term → Prop
  | same (t : Term) : Shape t t
  | array (ds : List (Term × Term)) (h : ∀ d ∈ ds, Reordered d.1 d.2) :
    Shape (.array (ds.map Prod.fst)) (.array (ds.map Prod.snd))
  | listing {l' l : Listing Term} (h : Listing.ReorderedBy Reordered l'.entries l.entries) :
    Shape (.listing l') (.listing l)
  | call {name : String} {l' l : Listing Term} {internal' internal : Option (List (Entry Term))}
    (h : Listing.ReorderedBy Reordered l'.entries l.entries) :
    Shape (.call name l' internal') (.call name l internal)
  | rule {s' s t' t : Term} (hs : Reordered s' s) (ht : Reordered t' t) :
    Shape (.rule s' t') (.rule s t)

/-- What a reordered term looks like on the outside. -/
theorem shape (h : Reordered t' t) : Shape t' t := by
  cases h with
  | refl => exact .same t'
  | array ds h => exact .array ds h
  | listing ds hds h hes' hes =>
    exact .listing ⟨ds, fun d hd ↦ ⟨(hds d hd).1, (hds d hd).2, h d hd⟩, hes', hes⟩
  | call ds hds h hes' hes | callWith ds hds h hes' hes =>
    exact .call ⟨ds, fun d hd ↦ ⟨(hds d hd).1, (hds d hd).2, h d hd⟩, hes', hes⟩
  | rule hs ht => exact .rule hs ht

/-- **Reordering goes both ways.** -/
theorem symm (h : Reordered t' t) : Reordered t t' := by
  have hswap {ds : List (Entry Term × Entry Term)}
      (hds : ∀ d ∈ ds, d.1.label = d.2.label ∧ d.1.modifiers = d.2.modifiers) :
      ∀ d ∈ ds.map Prod.swap, d.1.label = d.2.label ∧ d.1.modifiers = d.2.modifiers := by
    intro e he
    obtain ⟨d, hd, rfl⟩ := List.mem_map.1 he
    exact ⟨(hds d hd).1.symm, (hds d hd).2.symm⟩
  have hvalues {ds : List (Entry Term × Entry Term)}
      (h : ∀ d ∈ ds, Reordered d.2.value d.1.value) :
      ∀ d ∈ ds.map Prod.swap, Reordered d.1.value d.2.value := by
    intro e he
    obtain ⟨d, hd, rfl⟩ := List.mem_map.1 he
    exact h d hd
  have hfst {α : Type} (ds : List (α × α)) : (ds.map Prod.swap).map Prod.fst = ds.map Prod.snd :=
    List.map_map
  have hsnd {α : Type} (ds : List (α × α)) : (ds.map Prod.swap).map Prod.snd = ds.map Prod.fst :=
    List.map_map
  -- In each listing the pairs are swapped, and what was rearranged on one side is on the other.
  induction h with
  | refl => exact .refl _
  | array ds _ ih =>
    have harray := Reordered.array (ds.map Prod.swap) fun e he ↦ by
      obtain ⟨d, hd, rfl⟩ := List.mem_map.1 he
      exact ih d hd
    rwa [hfst, hsnd] at harray
  | listing ds hds _ hes' hes ih =>
    exact .listing _ (hswap hds) (hvalues ih) (hfst ds ▸ hes) (hsnd ds ▸ hes')
  | call ds hds _ hes' hes ih =>
    exact .call _ (hswap hds) (hvalues ih) (hfst ds ▸ hes) (hsnd ds ▸ hes')
  | callWith ds hds _ hes' hes js hjs _ his' his ih ihj =>
    exact .callWith _ (hswap hds) (hvalues ih) (hfst ds ▸ hes) (hsnd ds ▸ hes') _ (hswap hjs)
      (hvalues ihj) (hfst js ▸ his) (hsnd js ▸ his')
  | rule _ _ ihs iht => exact .rule ihs iht

/-- Reordering adds no capture and takes none away. -/
theorem hasCapture_eq (h : Reordered t' t) : t'.hasCapture = t.hasCapture := by
  have hany {α : Type} {f : α → Bool} {ds : List (α × α)} (h : ∀ d ∈ ds, f d.1 = f d.2) :
      (ds.map Prod.fst).any f = (ds.map Prod.snd).any f := by
    rw [List.any_map, List.any_map, Bool.eq_iff_iff, List.any_eq_true, List.any_eq_true]
    refine exists_congr fun d ↦ and_congr_right fun hd ↦ ?_
    rw [Function.comp, Function.comp, h d hd]
  -- Whether some entry holds a capture does not depend on the order.
  have hentries {ds : List (Entry Term × Entry Term)} {es' es : List (Entry Term)}
      (h : ∀ d ∈ ds, d.1.value.hasCapture = d.2.value.hasCapture)
      (hes' : Listing.Rearranged (ds.map Prod.fst) es')
      (hes : Listing.Rearranged (ds.map Prod.snd) es) :
      Term.anyEntryCapture es' = Term.anyEntryCapture es := by
    rw [Term.anyEntryCapture_eq, Term.anyEntryCapture_eq, ← hes'.perm.any_eq, ← hes.perm.any_eq]
    exact hany h
  induction h with
  | refl => rfl
  | array ds _ ih =>
    rw [Term.hasCapture, Term.hasCapture, Term.anyCapture_eq, Term.anyCapture_eq]
    exact hany ih
  | listing ds _ _ hes' hes ih | call ds _ _ hes' hes ih => exact hentries ih hes' hes
  | callWith ds _ _ hes' hes js _ _ his' his ih ihj =>
    exact congrArg₂ _ (hentries ih hes' hes) (hentries ihj his' his)
  | rule _ _ ihs iht => exact congrArg₂ _ ihs iht

/-- Each part has its counterpart. -/
theorem exists_part (h : Reordered t' t) {v' : Term} (hv' : v' ∈ t'.parts) :
    ∃ v ∈ t.parts, Reordered v' v := by
  have hvalues {l' l : Listing Term} (h : Listing.ReorderedBy Reordered l'.entries l.entries)
      (hv' : v' ∈ l'.values) : ∃ v ∈ l.values, Reordered v' v := by
    obtain ⟨e', he', rfl⟩ := List.mem_map.1 hv'
    obtain ⟨e, he, -, hrel⟩ := h.exists_of_mem he'
    exact ⟨e.value, List.mem_map_of_mem he, hrel⟩
  cases h.shape with
  | same => exact ⟨v', hv', .refl v'⟩
  | array ds hds =>
    obtain ⟨d, hd, rfl⟩ := List.mem_map.1 hv'
    exact ⟨d.2, List.mem_map_of_mem hd, hds d hd⟩
  | listing hl | call hl => exact hvalues hl hv'
  | rule hs ht =>
    rcases List.mem_cons.1 hv' with rfl | hv'
    · exact ⟨_, List.mem_cons_self, hs⟩
    · obtain rfl := List.mem_singleton.1 hv'
      exact ⟨_, List.mem_cons_of_mem _ List.mem_cons_self, ht⟩

/-- A reordered term is of the kind that it was. -/
theorem isConcrete_eq (h : Reordered t' t) : t'.isConcrete = t.isConcrete := by
  cases h.shape <;> rfl

/-- Reordering changes no reference. -/
theorem eq_of_reference (h : Reordered t' t) {name : String} (ht : t.reference? = some name) :
    t' = t := by
  cases h.shape with
  | same => rfl
  | _ => cases ht

/-- Reordering brings no references. -/
theorem references_subset (h : Reordered t' t) {x : String} (hx : x ∈ t'.references) :
    x ∈ t.references := by
  induction t' using Term.induction_parts generalizing t with
  | h t' ih =>
    rcases Term.mem_references_cases hx with rfl | ⟨v', hv', hx⟩
    · obtain rfl := h.symm.eq_of_reference rfl
      exact hx
    · obtain ⟨v, hv, hrel⟩ := h.exists_part hv'
      exact Term.mem_references_of_part hv (ih v' hv' hrel hx)

/-- **Reordering keeps terms tidy.** -/
theorem isTidy (h : Reordered t' t) (ht : t.IsTidy) : t'.IsTidy := by
  induction t' using Term.induction_parts generalizing t with
  | h t' ih =>
    refine Term.isTidy_iff.2 ⟨?_, fun v' hv' ↦ ?_⟩
    · cases h.shape with
      | same => exact ht.entries
      | listing hl | call hl => exact hl.distinct ht.entries
      | array | rule => exact ⟨.inl nofun, List.nodup_nil⟩
    · obtain ⟨v, hv, hrel⟩ := h.exists_part hv'
      exact ih v' hv' hrel (ht.part hv)

/-! ### What reordered terms are paired with -/

variable {p' p c' c : Term} {ds : List (Term × Term)}

/-- Which arrays a pattern fits is a matter of its length and of whether it has captures. -/
theorem fits_eq {ps' ps cs' cs : List Term} (hps : Reordered (.array ps') (.array ps))
    (hlength : ps'.length = ps.length) (hlength' : cs'.length = cs.length) :
    Matching.fits ps' cs' = Matching.fits ps cs := by
  have hcapture : Term.anyCapture ps' = Term.anyCapture ps := hps.hasCapture_eq
  rw [Matching.fits, Matching.fits, hlength, hlength', hcapture]

/-- **A reordered pattern is paired with the same.** -/
theorem pairing_pattern (h : Reordered p' p) (hds : p.pairing c = some ds) :
    ∃ ds', p'.pairing c = some ds' ∧ ∀ d' ∈ ds', ∃ d ∈ ds, Reordered d'.1 d.1 ∧ d'.2 = d.2 := by
  -- Kind by kind; what is not paired with the candidate before is not afterwards.
  cases h.shape with
  | same => exact ⟨ds, hds, fun d hd ↦ ⟨d, hd, .refl _, rfl⟩⟩
  | array as has =>
    cases c with
    | array cs =>
      have hlength : (as.map Prod.fst).length = (as.map Prod.snd).length := by
        rw [List.length_map, List.length_map]
      rw [Term.pairing] at hds ⊢
      rw [fits_eq h hlength rfl]
      split at hds
      · next hfits =>
        cases hds
        rw [if_pos hfits]
        refine ⟨_, rfl, fun d' hd' ↦ Listing.exists_of_mem_zip_left ?_ hd'⟩
        rwa [List.forall₂_map_left_iff, List.forall₂_map_right_iff, List.forall₂_same]
      · cases hds
    | _ => cases hds
  | listing hl =>
    cases c with
    | listing => exact Listing.pairing_of_reordered_pattern hl hds
    | _ => cases hds
  | call hl =>
    cases c with
    | call =>
      rw [Term.pairing] at hds ⊢
      split at hds
      · next hname =>
        rw [if_pos hname]
        exact Listing.pairing_of_reordered_pattern hl hds
      · cases hds
    | _ => cases hds
  | @rule s' s t' t hs ht =>
    cases c with
    | rule s₁ t₁ =>
      cases hds
      refine ⟨[(s', s₁), (t', t₁)], rfl, fun d' hd' ↦ ?_⟩
      rcases List.mem_cons.1 hd' with rfl | hd'
      · exact ⟨(s, s₁), List.mem_cons_self, hs, rfl⟩
      · obtain rfl := List.mem_singleton.1 hd'
        exact ⟨(t, t₁), List.mem_cons_of_mem _ List.mem_cons_self, ht, rfl⟩
    | _ => cases hds

/-- **A reordered candidate is paired with the same** if no name stands twice in it. -/
theorem pairing_candidate (h : Reordered c' c) (hc : (c.entries.filterMap (·.name?)).Nodup)
    (hds : p.pairing c = some ds) :
    ∃ ds', p.pairing c' = some ds' ∧ ∀ d' ∈ ds', ∃ d ∈ ds, d'.1 = d.1 ∧ Reordered d'.2 d.2 := by
  -- Kind by kind, with the sides exchanged.
  cases h.shape with
  | same => exact ⟨ds, hds, fun d hd ↦ ⟨d, hd, rfl, .refl _⟩⟩
  | array as has =>
    cases p with
    | array ps =>
      have hlength : (as.map Prod.fst).length = (as.map Prod.snd).length := by
        rw [List.length_map, List.length_map]
      rw [Term.pairing] at hds ⊢
      rw [fits_eq (.refl _) rfl hlength]
      split at hds
      · next hfits =>
        cases hds
        rw [if_pos hfits]
        refine ⟨_, rfl, fun d' hd' ↦ Listing.exists_of_mem_zip_right ?_ hd'⟩
        rwa [List.forall₂_map_left_iff, List.forall₂_map_right_iff, List.forall₂_same]
      · cases hds
    | _ => cases hds
  | listing hl =>
    cases p with
    | listing => exact Listing.pairing_of_reordered_candidate hl hc hds
    | _ => cases hds
  | call hl =>
    cases p with
    | call =>
      rw [Term.pairing] at hds ⊢
      split at hds
      · next hname =>
        rw [if_pos hname]
        exact Listing.pairing_of_reordered_candidate hl hc hds
      · cases hds
    | _ => cases hds
  | @rule s' s t' t hs ht =>
    cases p with
    | rule s₁ t₁ =>
      cases hds
      refine ⟨[(s₁, s'), (t₁, t')], rfl, fun d' hd' ↦ ?_⟩
      rcases List.mem_cons.1 hd' with rfl | hd'
      · exact ⟨(s₁, s), List.mem_cons_self, rfl, hs⟩
      · obtain rfl := List.mem_singleton.1 hd'
        exact ⟨(t₁, t), List.mem_cons_of_mem _ List.mem_cons_self, rfl, ht⟩
    | _ => cases hds

end Reordered

/-! ### Relating reordered terms -/

namespace Relates

variable {resolve σ : String → Option Term} {p p' c c' t : Term} {N : Set String}

/-- **Order makes no difference in a pattern.** -/
theorem reorder_pattern (h : Relates resolve σ p c) (hp : Reordered p' p) :
    Relates resolve σ p' c := by
  induction h generalizing p' with
  | capture h =>
    cases hp.shape
    exact .capture h
  | same name =>
    cases hp.shape
    exact .same name
  | stored hu h =>
    cases hp.shape
    exact .stored hu h
  | followed hconcrete hu _ ih => exact .followed (hp.isConcrete_eq.trans hconcrete) hu (ih hp)
  | parts hds _ ih =>
    obtain ⟨ds', hds', hall⟩ := hp.pairing_pattern hds
    refine .parts hds' fun d' hd' ↦ ?_
    obtain ⟨d, hd, hrel, heq⟩ := hall d' hd'
    rw [heq]
    exact ih d hd hrel

/-- **Order makes no difference in a tidy candidate**, where nothing is captured. -/
theorem reorder_candidate (h : Relates resolve nothing p c) (hc : Reordered c' c)
    (htidy : c.IsTidy) : Relates resolve nothing p c' := by
  induction h generalizing c' with
  | capture h => cases h
  | same name =>
    cases hc.shape
    exact .same name
  | stored hu _ ih => exact .stored hu (ih hc htidy)
  | followed hconcrete hu h =>
    cases hc.shape
    exact .followed hconcrete hu h
  | parts hds _ ih =>
    obtain ⟨ds', hds', hall⟩ := hc.pairing_candidate htidy.entries.2 hds
    refine .parts hds' fun d' hd' ↦ ?_
    obtain ⟨d, hd, heq, hrel⟩ := hall d' hd'
    rw [heq]
    exact ih d hd hrel (htidy.part (Term.mem_parts_of_pairing hds hd).2)

/-- **A tidy term without captures matches itself.** -/
theorem refl (ht : t.captures = []) (htidy : t.IsTidy) : Relates resolve σ t t := by
  induction t using Term.induction_parts with
  | h t ih =>
    cases hconcrete : t.isConcrete with
    | false =>
      cases t with
      | reference name => exact .same name
      | capture name => cases ht
      | _ => cases hconcrete
    | true =>
      refine .parts (Term.pairing_self hconcrete htidy.entries.1 htidy.unambiguous) fun d hd ↦ ?_
      obtain ⟨v, hv, rfl⟩ := List.mem_map.1 hd
      exact ih v hv (Term.captures_part ht hv) (htidy.part hv)

end Relates

/-! ### Matching both ways -/

namespace Listing

variable {p c : Listing Term} {ds ds' : List (Term × Term)}

/-- Of two listings that are found in each other by names, the second one is distinct if the first
one is: it has the same names, and no room for others. -/
theorem names_of_besideNamed (hp : Distinct p.entries) (hnamed : p.isNamed = true)
    (hsize : c.size ≤ p.size) (h : besideNamed c p.entries = some ds) :
    (c.entries.filterMap (·.name?)).Nodup ∧ ∀ e ∈ c.entries, e.name?.isSome = true := by
  have hall : ∀ e ∈ p.entries, e.name?.isSome = true := isSome_name?_of_isNamed hp.1 hnamed
  have hlength : (p.entries.filterMap (·.name?)).length = p.size :=
    List.filterMap_length_eq_length.2 hall
  have hsub : p.entries.filterMap (·.name?) ⊆ c.entries.filterMap (·.name?) := by
    intro name hname
    obtain ⟨e, he, hename⟩ := List.mem_filterMap.1 hname
    obtain ⟨v, hv⟩ := exists_besideNamed.1 ⟨ds, h⟩ e he
    obtain ⟨f, hf, hfname, -⟩ := exists_entry_of_get? hv
    rw [hename, Option.getD_some] at hfname
    exact List.mem_filterMap.2 ⟨f, hf, hfname⟩
  have hle : (c.entries.filterMap (·.name?)).length ≤ c.size := List.length_filterMap_le _ _
  have hperm := (hp.2.subperm hsub).perm_of_length_le (hle.trans (hsize.trans hlength.ge))
  refine ⟨hperm.nodup_iff.1 hp.2, List.filterMap_length_eq_length.1 (le_antisymm hle ?_)⟩
  rw [← hperm.length_eq, hlength]
  exact hsize

/-- **What is paired both ways is paired the same way.** -/
theorem pairing_swap (hp : Distinct p.entries) (h : p.pairing c = some ds)
    (h' : c.pairing p = some ds') {d : Term × Term} (hd : d ∈ ds') : d.swap ∈ ds := by
  rcases pairing_cases h' with ⟨-, rfl⟩ | ⟨hsize', hnamed, hpaired'⟩
  · cases hd
  · rcases pairing_cases h with ⟨hnil, -⟩ | ⟨hsize, -, hpaired⟩
    · -- There is no room for entries of the second listing either.
      have hnil' : c.entries = [] := by
        refine List.eq_nil_of_length_eq_zero (Nat.le_zero.1 (hsize'.trans_eq ?_))
        rw [size, hnil]
        rfl
      rw [pairing_nil hnil'] at h'
      cases h'
      cases hd
    · rcases hpaired' with ⟨hc, hds'⟩ | ⟨hc, rfl⟩
      · rcases hpaired with ⟨hp', hds⟩ | ⟨hp', -⟩
        · obtain ⟨hnodup, hall⟩ := names_of_besideNamed hp hp' hsize' hds
          obtain ⟨e, he, hvalue, hget⟩ := (mem_besideNamed hds').1 hd
          obtain ⟨name, hname⟩ := Option.isSome_iff_exists.1 (hall e he)
          obtain ⟨f, hf, hfname, hfvalue⟩ := exists_entry_of_get? hget
          refine (mem_besideNamed hds).2 ⟨f, hf, hfvalue.symm, ?_⟩
          rw [hfname, hname, Option.getD_some, Option.getD_some, get?_of_nodup hnodup he hname]
          exact congrArg some hvalue.symm
        · rw [← hnamed, hc] at hp'
          cases hp'
      · rcases hpaired with ⟨hp', -⟩ | ⟨-, rfl⟩
        · rw [← hnamed, hc] at hp'
          cases hp'
        · rw [← List.zip_swap]
          exact List.mem_map_of_mem hd

end Listing

/-- **What is paired one way is paired the other way**, between terms that are paired both ways. -/
theorem Term.pairing_swap {p c : Term} {ds ds' : List (Term × Term)} (hp : p.IsTidy)
    (h : p.pairing c = some ds) (h' : c.pairing p = some ds') {d : Term × Term} (hd : d ∈ ds') :
    d.swap ∈ ds := by
  rw [pairing.eq_def] at h'
  split at h'
  · split at h'
    · cases h'
      cases hd
    · cases h'
  · split at h'
    · rw [pairing] at h
      split at h
      · cases h
        cases h'
        rw [← List.zip_swap]
        exact List.mem_map_of_mem hd
      · cases h
    · cases h'
  · exact Listing.pairing_swap hp.entries h h' hd
  · split at h'
    · rw [pairing] at h
      split at h
      · exact Listing.pairing_swap hp.entries h h' hd
      · cases h
    · cases h'
  · cases h
    cases h'
    rcases List.mem_cons.1 hd with rfl | hd
    · exact List.mem_cons_self
    · obtain rfl := List.mem_singleton.1 hd
      exact List.mem_cons_of_mem _ List.mem_cons_self
  · cases h'

/-- **Orderly names**: plain names for which tidy terms are stored. -/
structure Orderly (resolve : String → Option Term) (names : Set String) : Prop
    extends Plain resolve names where
  tidy : ∀ x ∈ names, ∀ u, resolve x = some u → u.IsTidy

/-- **A term that matches both ways with one without captures has none itself.** A capture in it
would stand where the other term has something that matches it. -/
theorem Relates.captures_eq_nil_of_mutual {resolve σ σ' : String → Option Term} {t c : Term}
    {N : Set String} (h : Relates resolve σ t c) (h' : Relates resolve σ' c t)
    (hN : Orderly resolve N) (ht : t.captures = []) (htidy : t.IsTidy)
    (htN : ∀ x ∈ t.references, x ∈ N) : c.captures = [] := by
  induction h generalizing σ' with
  | capture | same => cases ht <;> rfl
  | @stored name u c hu h ih =>
    have hname : name ∈ N := htN name (Term.mem_references_self name)
    have hrest {σ' : String → Option Term} (h' : Relates resolve σ' c u) : c.captures = [] :=
      ih h' (hN.captures name hname u hu) (hN.tidy name hname u hu) (hN.closed name hname u hu)
    cases hc : c.isConcrete with
    | true =>
      obtain ⟨u', hu', h'⟩ := (Relates.followed_iff hc).1 h'
      obtain rfl : u = u' := Option.some.inj (hu.symm.trans hu')
      exact hrest h'
    | false =>
      cases c with
      | reference => rfl
      -- A capture would match the stored term as well, which has none to be matched with.
      | capture name =>
        have hself : Relates resolve (fun _ ↦ some u) (.capture name) u := .capture rfl
        exact hrest hself
      | _ => cases hc
  | followed => rfl
  | @parts t c ds hds h ih =>
    obtain ⟨htc, hcc⟩ := Term.isConcrete_of_pairing hds
    obtain ⟨ds', hds', hall'⟩ := (Relates.parts_iff hcc (Term.reference?_of_isConcrete htc)).1 h'
    refine List.eq_nil_iff_forall_not_mem.2 fun n hn ↦ ?_
    rcases Term.mem_captures_cases hn with rfl | ⟨w, hw, hn⟩
    · cases hcc
    · rw [← Term.map_fst_pairing hds'] at hw
      obtain ⟨d, hd, rfl⟩ := List.mem_map.1 hw
      -- The part is paired both ways, so it is covered by the induction.
      have hswap := Term.pairing_swap htidy hds hds' hd
      have hpart := (Term.mem_parts_of_pairing hds hswap).1
      have hnil := ih _ hswap (hall' d hd) (Term.captures_part ht hpart) (htidy.part hpart)
        fun x hx ↦ htN x (Term.mem_references_of_part hpart hx)
      exact List.eq_nil_iff_forall_not_mem.1 hnil n hn

end TermRegistry
