import Mathlib.Data.List.Induction
import TermRegistry.Listing

/-!
# Listings that are built step by step

A listing is empty at first, or made from entries that are uniform, and then entries are pushed and
it is turned into statements. Whatever the calls are, the listing stays sound: its entries are
uniform, and it is in statement form once one of them has a declaration type. `Listing.Sound.after`
says so of one call and `Listing.Sound.run` of all of them; conversely every sound listing is built
by pushing its entries (`Listing.Sound.run_pushes`).

A push is refused when it would mix named and positional entries, and is then lost. So of all that
is pushed a listing holds what is named just as its first entry is (`Listing.Sound.entries_run`).
-/

namespace TermRegistry

namespace Listing

variable {α : Type} {l start : Listing α} {e : Entry α} {es : List (Entry α)} {form : Form}

/-! ### Sound listings -/

/-- **Sound listings**: the entries are uniform, and in statement form if one of them has a
declaration type. -/
structure Sound (l : Listing α) : Prop where
  uniform : Uniform l.entries
  isStatements : l.isTyped = true → l.isStatements = true

instance (l : Listing α) : Decidable l.Sound :=
  decidable_of_iff (Uniform l.entries ∧ (l.isTyped = true → l.isStatements = true))
    ⟨fun h ↦ ⟨h.1, h.2⟩, fun h ↦ ⟨h.1, h.2⟩⟩

/-- Listings without entries are sound. -/
theorem sound_nil (form : Form) : Sound (⟨[], form⟩ : Listing α) :=
  ⟨.inl fun _ he ↦ absurd he List.not_mem_nil, fun h ↦ nomatch h⟩

theorem sound_statements : Sound ⟨es, .statements⟩ ↔ Uniform es :=
  ⟨fun h ↦ h.uniform, fun h ↦ ⟨h, fun _ ↦ rfl⟩⟩

theorem Sound.toStatements (h : l.Sound) : l.toStatements.Sound := sound_statements.2 h.uniform

/-- Uniform entries are sound in the form that they call for. -/
theorem sound_ofEntries (h : Uniform es) : (ofEntries es).Sound where
  uniform := h
  isStatements htyped := by
    have hform : formOf es = .statements := if_pos htyped
    rw [Listing.isStatements, ofEntries, hform]
    rfl

theorem ofEntries?_eq_some : ofEntries? es = some l ↔ Uniform es ∧ ofEntries es = l := by
  rw [ofEntries?]
  split
  · next h => rw [Option.some.injEq, and_iff_right h]
  · next h => exact ⟨nofun, fun hl ↦ absurd hl.1 h⟩

/-- Named entries are not refused. -/
theorem ofEntries?_of_named (h : ∀ e ∈ es, e.name?.isSome = true) :
    ofEntries? es = some (ofEntries es) :=
  ofEntries?_eq_some.2 ⟨.inl h, rfl⟩

/-- A listing in a form: only statements are turned into. -/
def inForm (form : Form) (l : Listing α) : Listing α :=
  match form with
  | .parameters => l
  | .statements => l.toStatements

/-- **A sound listing is what its entries and its form make of it.** -/
theorem Sound.inForm_ofEntries (h : Sound ⟨es, form⟩) :
    (ofEntries es).inForm form = ⟨es, form⟩ := by
  cases form with
  | statements => rfl
  | parameters =>
    have huntyped : ¬es.any (·.type?.isSome) = true := fun htyped ↦ nomatch h.isStatements htyped
    rw [inForm, ofEntries, formOf, if_neg huntyped]

/-! ### Calls -/

/-- The calls that change a listing. -/
inductive Call (α : Type)
  | push (e : Entry α)
  | toStatements

/-- The listing after a call. What is refused is lost. -/
def after (l : Listing α) : Call α → Listing α
  | .push e => (l.push? e).getD l
  | .toStatements => l.toStatements

/-- **The listing after some calls**, one after the other. -/
def run (l : Listing α) (calls : List (Call α)) : Listing α := calls.foldl after l

theorem run_append (l : Listing α) (calls : List (Call α)) (call : Call α) :
    l.run (calls ++ [call]) = (l.run calls).after call := by
  rw [run, List.foldl_append]
  rfl

/-- **Fresh listings**: the empty ones, and those made from uniform entries. -/
inductive Fresh : Listing α → Prop
  | parameters : Fresh {}
  | statements : Fresh ⟨[], .statements⟩
  | ofEntries {es : List (Entry α)} {l : Listing α} (h : ofEntries? es = some l) : Fresh l

/-- The entries that are pushed by some calls, refused or not. -/
def pushed (calls : List (Call α)) : List (Entry α) :=
  calls.filterMap fun
    | .push e => some e
    | .toStatements => none

/-- Those of some entries that are named just as the first one is. -/
def alike (es : List (Entry α)) : List (Entry α) := es.filter (accepts ⟨es, .parameters⟩)

theorem pushed_concat_push (calls : List (Call α)) (e : Entry α) :
    pushed (calls ++ [.push e]) = pushed calls ++ [e] :=
  List.filterMap_append

theorem pushed_concat_toStatements (calls : List (Call α)) :
    pushed (calls ++ [.toStatements]) = pushed calls :=
  List.filterMap_append.trans (List.append_nil _)

/-- Of uniform entries all are named just as the first one is. -/
theorem alike_of_uniform (h : Uniform es) : alike es = es := by
  refine List.filter_eq_self.2 fun e he ↦ accepts_of_uniform (h.mono ?_)
  exact List.append_subset.2 ⟨List.Subset.refl es, List.cons_subset.2 ⟨he, List.nil_subset es⟩⟩

theorem head?_alike (es : List (Entry α)) : (alike es).head? = es.head? := by
  cases es with
  | nil => rfl
  | cons d es => simp [alike, accepts]

/-- Another entry is like the others if it may follow those that are alike. -/
theorem alike_concat (es : List (Entry α)) (e : Entry α) :
    alike (es ++ [e]) = alike es ++ if accepts ⟨alike es, form⟩ e then [e] else [] := by
  rw [accepts, head?_alike]
  cases es with
  | nil => exact List.filter_cons_of_pos (beq_self_eq_true e.name?.isSome)
  | cons d es =>
    have hlast (p : Entry α → Bool) : [e].filter p = if p e then [e] else [] := List.filter_cons
    rw [alike, List.filter_append, hlast]
    rfl

/-! ### One call -/

/-- **When a push is refused**: the entries would not be uniform. -/
theorem push?_eq_none (h : Uniform l.entries) :
    l.push? e = none ↔ ¬Uniform (l.entries ++ [e]) := by
  constructor
  · intro hpush huniform
    rw [push?, if_pos (accepts_of_uniform huniform)] at hpush
    cases hpush
  · intro hmixed
    rw [Option.eq_none_iff_forall_ne_some]
    intro l' hpush
    rw [← push?_entries hpush] at hmixed
    exact hmixed (push?_uniform h hpush)

/-- A refused push changes nothing. -/
theorem after_of_refused (h : l.push? e = none) : l.after (.push e) = l := by
  rw [after, h]
  rfl

/-- What a push makes of the entries. -/
theorem entries_after_push (l : Listing α) (e : Entry α) :
    (l.after (.push e)).entries = l.entries ++ if l.accepts e then [e] else [] := by
  rw [after, push?]
  split
  · rfl
  · exact (List.append_nil _).symm

/-- **One call keeps a listing sound**. -/
theorem Sound.after (h : l.Sound) (call : Call α) : (l.after call).Sound := by
  cases call with
  | toStatements => exact h.toStatements
  | push e =>
    cases hpush : l.push? e with
    | none =>
      rw [after_of_refused hpush]
      exact h
    | some l' =>
      have hafter : l.after (.push e) = l' := by
        rw [Listing.after, hpush]
        rfl
      rw [hafter]
      refine ⟨push?_uniform h.uniform hpush, fun htyped ↦ ?_⟩
      rw [isTyped, push?_entries hpush, List.any_append, List.any_cons, List.any_nil,
        Bool.or_false, Bool.or_eq_true] at htyped
      rw [push?] at hpush
      split at hpush
      · cases hpush
        cases he : e.type?.isSome with
        | true => rfl
        | false => exact h.isStatements (htyped.resolve_right (he ▸ Bool.false_ne_true))
      · cases hpush

/-! ### All calls -/

theorem Fresh.sound (h : start.Fresh) : start.Sound := by
  cases h with
  | parameters => exact sound_nil _
  | statements => exact sound_nil _
  | ofEntries h =>
    obtain ⟨huniform, rfl⟩ := ofEntries?_eq_some.1 h
    exact sound_ofEntries huniform

/-- **All calls keep a listing sound**, one after the other. -/
theorem Sound.run (h : l.Sound) (calls : List (Call α)) : (l.run calls).Sound := by
  induction calls using List.reverseRecOn with
  | nil => exact h
  | append_singleton calls call ih =>
    rw [run_append]
    exact ih.after call

/-- **What a listing holds**: of its first entries and all that are pushed, those that are named
just as the first one is. -/
theorem Sound.entries_run (h : l.Sound) (calls : List (Call α)) :
    (l.run calls).entries = alike (l.entries ++ pushed calls) := by
  induction calls using List.reverseRecOn with
  | nil =>
    rw [pushed, List.filterMap_nil, List.append_nil, alike_of_uniform h.uniform]
    rfl
  | append_singleton calls call ih =>
    rw [run_append]
    cases call with
    | push e =>
      rw [entries_after_push, pushed_concat_push, ← List.append_assoc, alike_concat, ← ih]
    | toStatements =>
      rw [pushed_concat_toStatements]
      exact ih

/-- The entries of a sound listing up to the last one are sound. -/
theorem Sound.of_concat (h : Sound ⟨es ++ [e], form⟩) : Sound ⟨es, form⟩ where
  uniform := h.uniform.mono (List.subset_append_left es [e])
  isStatements htyped := h.isStatements <| by
    rw [isTyped, List.any_append]
    exact Bool.or_eq_true_iff.2 (.inl htyped)

/-- **A sound listing is what its entries make of an empty one**: none of them is refused when they
are pushed one after the other. -/
theorem Sound.run_pushes (h : Sound ⟨es, form⟩) :
    Listing.run ⟨[], form⟩ (es.map .push) = ⟨es, form⟩ := by
  induction es using List.reverseRecOn with
  | nil => rfl
  | append_singleton es e ih =>
    have hform : (if e.type?.isSome then .statements else form) = form := by
      cases form with
      | statements => exact ite_self _
      | parameters =>
        refine if_neg fun htype ↦ ?_
        have htyped : isTyped ⟨es ++ [e], .parameters⟩ = true :=
          List.any_eq_true.2 ⟨e, List.mem_append_right es (List.mem_singleton_self e), htype⟩
        exact nomatch h.isStatements htyped
    rw [List.map_append, List.map_singleton, run_append, ih h.of_concat, Listing.after, push?,
      if_pos (accepts_of_uniform h.uniform), hform]
    rfl

/-- Every sound listing can be built. -/
theorem Sound.exists_run (h : l.Sound) :
    ∃ (start : Listing α) (calls : List (Call α)), start.Fresh ∧ start.run calls = l := by
  obtain ⟨es, form⟩ := l
  cases form with
  | parameters => exact ⟨_, _, .parameters, h.run_pushes⟩
  | statements => exact ⟨_, _, .statements, h.run_pushes⟩

end Listing

end TermRegistry
