import Mathlib.Data.Finset.Card
import Mathlib.Data.List.Induction
import TermRegistry.Binding
import TermRegistry.Cache

/-!
# What a cache answers

A cache is asked for results and cleared, in any order. What it keeps depends on what it was asked
for since it was last cleared: `Cache.recorded_reached` relates a cache to these calls, one call at
a time, and `Cache.keepsFirst_reached` says from this what it answers after any sequence of calls,
and how many results it keeps.

Computations may depend on a state of their own and change it, so that two computations for one
identifier need not agree. They do not use the cache: a `Cache.Session` has the two side by side.
-/

namespace TermRegistry

/-- **The identifiers that a cache takes for the same.** -/
def CacheMode.Same : CacheMode → String → String → Prop
  | none, _, _ => False
  | perCall, id, id' => id = id'
  | singleton, _, _ => True

/-- Identifiers are the same when they have the same key. -/
theorem CacheMode.same_iff {mode : CacheMode} {id id' key : String}
    (h : mode.key? id' = some key) : mode.Same id id' ↔ mode.key? id = some key := by
  cases mode with
  | none => cases h
  | perCall => exact ⟨fun hsame ↦ hsame ▸ h, fun hkey ↦ Option.some.inj (hkey.trans h.symm)⟩
  | singleton => exact ⟨fun _ ↦ h, fun _ ↦ trivial⟩

/-- An identifier without a key is not even the same as itself. -/
theorem CacheMode.not_same {mode : CacheMode} {id id' : String} (h : mode.key? id' = .none) :
    ¬mode.Same id id' := by
  cases mode with
  | none => exact False.elim
  | perCall => cases h
  | singleton => cases h

namespace Cache

variable {σ α : Type}

/-! ### Calls -/

/-- The calls that change a cache. A result is computed from the state of the computations, which
is changed thereby. -/
inductive Call (σ α : Type)
  | get (id : String) (compute : σ → α × σ)
  | clear

/-- A cache, and the state that computations depend on. -/
structure Session (σ α : Type) where
  cache : Cache α
  outside : σ

namespace Session

/-- An empty cache. -/
def start (mode : CacheMode) (outside : σ) : Session σ α := ⟨{ mode }, outside⟩

/-- What the cache answers for an identifier. -/
def answer (s : Session σ α) (id : String) (compute : σ → α × σ) : Answer α :=
  s.cache.getOrCompute id fun _ ↦ (compute s.outside).1

/-- The session after a call. The state changes only if something is computed. -/
def after (s : Session σ α) : Call σ α → Session σ α
  | .get id compute =>
    ⟨(s.answer id compute).cache,
      if (s.answer id compute).computed then (compute s.outside).2 else s.outside⟩
  | .clear => ⟨s.cache.clear, s.outside⟩

end Session

/-- **The session that some calls lead to**, made one after the other on an empty cache. -/
def reached (mode : CacheMode) (outside : σ) (calls : List (Call σ α)) : Session σ α :=
  calls.foldl Session.after (Session.start mode outside)

theorem reached_append (mode : CacheMode) (outside : σ) (calls : List (Call σ α))
    (call : Call σ α) :
    reached mode outside (calls ++ [call]) = (reached mode outside calls).after call := by
  rw [reached, List.foldl_append]
  rfl

/-! ### What was asked -/

variable {mode : CacheMode} {outside : σ} {calls before : List (Call σ α)} {id key : String}
  {compute : σ → α × σ}

/-- **An identifier was asked for**, after the calls `before`, and the cache was not cleared
since. -/
def Asked (calls before : List (Call σ α)) (id : String) (compute : σ → α × σ) : Prop :=
  ∃ later, calls = before ++ .get id compute :: later ∧ .clear ∉ later

/-- **An identifier is new**: since the cache was last cleared, none that is the same was asked
for. -/
def IsNew (mode : CacheMode) (calls : List (Call σ α)) (id : String) : Prop :=
  ∀ before id' compute, Asked calls before id' compute → ¬mode.Same id' id

/-- **An identifier was the first one** to be asked for among those that are the same, since the
cache was last cleared. -/
def IsFirst (mode : CacheMode) (calls before : List (Call σ α)) (id : String)
    (compute : σ → α × σ) : Prop :=
  Asked calls before id compute ∧ IsNew mode before id

theorem not_asked_nil : ¬Asked [] before id compute := by
  rintro ⟨later, heq, -⟩
  exact List.append_ne_nil_of_right_ne_nil before (List.cons_ne_nil _ later) heq.symm

theorem not_asked_clear : ¬Asked (calls ++ [.clear]) before id compute := by
  rintro ⟨later, heq, hlater⟩
  induction later using List.reverseRecOn with
  | nil => cases (List.append_inj' heq rfl).2
  | append_singleton later call _ =>
    rw [← List.cons_append, ← List.append_assoc] at heq
    cases (List.append_inj' heq rfl).2
    exact hlater (List.mem_append_right _ (List.mem_singleton_self _))

theorem asked_get {id' : String} {compute' : σ → α × σ} :
    Asked (calls ++ [.get id' compute']) before id compute ↔
      Asked calls before id compute ∨ before = calls ∧ id = id' ∧ compute = compute' := by
  constructor
  · rintro ⟨later, heq, hlater⟩
    induction later using List.reverseRecOn with
    | nil =>
      obtain ⟨rfl, hget⟩ := List.append_inj' heq rfl
      cases hget
      exact .inr ⟨rfl, rfl, rfl⟩
    | append_singleton later call _ =>
      rw [← List.cons_append, ← List.append_assoc] at heq
      exact .inl ⟨later, (List.append_inj' heq rfl).1, fun hmem ↦
        hlater (List.mem_append_left _ hmem)⟩
  · rintro (⟨later, rfl, hlater⟩ | ⟨rfl, rfl, rfl⟩)
    · refine ⟨later ++ [.get id' compute'], ?_, ?_⟩
      · rw [List.append_assoc, List.cons_append]
      · rw [List.mem_append, List.mem_singleton, not_or]
        exact ⟨hlater, nofun⟩
    · exact ⟨[], rfl, List.not_mem_nil⟩

theorem isFirst_get {id' : String} {compute' : σ → α × σ} :
    IsFirst mode (calls ++ [.get id' compute']) before id compute ↔
      IsFirst mode calls before id compute ∨
        (before = calls ∧ id = id' ∧ compute = compute') ∧ IsNew mode calls id' := by
  rw [IsFirst, asked_get, or_and_right, ← IsFirst]
  refine or_congr_right (and_congr_right ?_)
  rintro ⟨rfl, rfl, rfl⟩
  rfl

/-! ### One call, and all of them -/

/-- **A result was computed for a key** by the first one that was asked for it. -/
def Computed (mode : CacheMode) (outside : σ) (calls : List (Call σ α)) (key : String) (a : α) :
    Prop :=
  ∃ before id compute, IsFirst mode calls before id compute ∧ mode.key? id = some key ∧
    (compute (reached mode outside before).outside).1 = a

theorem computed_get {a : α} :
    Computed mode outside (calls ++ [.get id compute]) key a ↔
      Computed mode outside calls key a ∨ IsNew mode calls id ∧ mode.key? id = some key ∧
        (compute (reached mode outside calls).outside).1 = a := by
  constructor
  · rintro ⟨before, id', compute', hfirst, hkey, ha⟩
    rcases isFirst_get.1 hfirst with hfirst | ⟨⟨rfl, rfl, rfl⟩, hnew⟩
    · exact .inl ⟨before, id', compute', hfirst, hkey, ha⟩
    · exact .inr ⟨hnew, hkey, ha⟩
  · rintro (⟨before, id', compute', hfirst, hkey, ha⟩ | ⟨hnew, hkey, ha⟩)
    · exact ⟨before, id', compute', isFirst_get.2 (.inl hfirst), hkey, ha⟩
    · exact ⟨calls, id, compute, isFirst_get.2 (.inr ⟨⟨rfl, rfl, rfl⟩, hnew⟩), hkey, ha⟩

/-- **What a cache has on record** of the calls that were made on it: for each key that was asked
for since it was last cleared, the result that was computed first. -/
structure Recorded (mode : CacheMode) (outside : σ) (calls : List (Call σ α)) (c : Cache α) :
    Prop where
  mode_eq : c.mode = mode
  nodup : (c.entries.map Prod.fst).Nodup
  mem_of_asked : ∀ {before id compute key}, Asked calls before id compute →
    mode.key? id = some key → key ∈ c.entries.map Prod.fst
  lookup_eq_some : ∀ {key a}, c.entries.lookup key = some a ↔ Computed mode outside calls key a

/-- Nothing is on record of an empty cache, just after it was made or cleared. -/
theorem Recorded.of_not_asked {c : Cache α} (hmode : c.mode = mode) (hentries : c.entries = [])
    (hasked : ∀ before id compute, ¬Asked calls before id compute) :
    Recorded mode outside calls c where
  mode_eq := hmode
  nodup := hentries ▸ List.nodup_nil
  mem_of_asked h := absurd h (hasked _ _ _)
  lookup_eq_some {key a} := by
    rw [hentries]
    constructor
    · rintro ⟨⟩
    · rintro ⟨before, id, compute, hfirst, -⟩
      exact absurd hfirst.1 (hasked before id compute)

namespace Recorded

variable {c : Cache α}

/-- An identifier is new when no result is kept for its key. -/
theorem isNew_iff (h : Recorded mode outside calls c) (hkey : mode.key? id = some key) :
    IsNew mode calls id ↔ c.entries.lookup key = none := by
  constructor
  · intro hnew
    by_contra hlookup
    obtain ⟨a, ha⟩ := Option.ne_none_iff_exists'.1 hlookup
    obtain ⟨before, id', compute, hfirst, hkey', -⟩ := h.lookup_eq_some.1 ha
    exact hnew before id' compute hfirst.1 ((CacheMode.same_iff hkey).2 hkey')
  · intro hlookup before id' compute hasked hsame
    have hmem := h.mem_of_asked hasked ((CacheMode.same_iff hkey).1 hsame)
    rw [← lookup_isSome_iff_mem, hlookup] at hmem
    cases hmem

/-- What the cache answers, and what it keeps afterwards, in each of the three cases: nothing is
ever kept for the identifier, something is kept, or nothing is kept so far. -/
theorem getOrCompute_cases (h : Recorded mode outside calls c) (id : String) (compute : Unit → α) :
    (mode.key? id = none ∧ c.getOrCompute id compute = ⟨compute (), true, c⟩) ∨
    (∃ key kept, mode.key? id = some key ∧ c.entries.lookup key = some kept ∧
      c.getOrCompute id compute = ⟨kept, false, c⟩) ∨
    (∃ key, mode.key? id = some key ∧ c.entries.lookup key = none ∧
      c.getOrCompute id compute =
        ⟨compute (), true, { c with entries := c.entries ++ [(key, compute ())] }⟩) := by
  rw [getOrCompute, h.mode_eq]
  cases hkey : mode.key? id with
  | none => exact .inl ⟨rfl, rfl⟩
  | some key =>
    cases hlookup : c.entries.lookup key with
    | none => exact .inr (.inr ⟨key, rfl, hlookup, by simp only [hlookup]⟩)
    | some kept => exact .inr (.inl ⟨key, kept, rfl, hlookup, by simp only [hlookup]⟩)

/-- Nothing changes when something is kept already, or nothing ever is. -/
theorem get_of_kept (h : Recorded mode outside calls c)
    (hkept : ∀ key, mode.key? id = some key → key ∈ c.entries.map Prod.fst) :
    Recorded mode outside (calls ++ [.get id compute]) c where
  mode_eq := h.mode_eq
  nodup := h.nodup
  mem_of_asked hasked hkey := by
    rcases asked_get.1 hasked with hasked | ⟨-, rfl, -⟩
    · exact h.mem_of_asked hasked hkey
    · exact hkept _ hkey
  lookup_eq_some {key a} := by
    rw [h.lookup_eq_some, computed_get]
    refine (or_iff_left ?_).symm
    rintro ⟨hnew, hkey, -⟩
    have hmem := hkept key hkey
    rw [← lookup_isSome_iff_mem, (h.isNew_iff hkey).1 hnew] at hmem
    cases hmem

/-- The first result for a key is put behind the others. -/
theorem get_of_new (h : Recorded mode outside calls c) (hkey : mode.key? id = some key)
    (hlookup : c.entries.lookup key = none) :
    Recorded mode outside (calls ++ [.get id compute])
      { c with entries :=
          c.entries ++ [(key, (compute (reached mode outside calls).outside).1)] } where
  mode_eq := h.mode_eq
  nodup := by
    have hfresh : key ∉ c.entries.map Prod.fst := by
      rw [← lookup_isSome_iff_mem, hlookup]
      exact Bool.false_ne_true
    rw [List.map_append, List.map_singleton, ← List.concat_eq_append]
    exact h.nodup.concat hfresh
  mem_of_asked hasked hkey' := by
    rw [List.map_append, List.mem_append]
    rcases asked_get.1 hasked with hasked | ⟨-, rfl, -⟩
    · exact .inl (h.mem_of_asked hasked hkey')
    · exact .inr (List.mem_singleton.2 (Option.some.inj (hkey'.symm.trans hkey)))
  lookup_eq_some {key' a} := by
    rw [computed_get, ← h.lookup_eq_some, List.lookup_append, Option.or_eq_some_iff, hkey,
      Option.some.injEq, h.isNew_iff hkey]
    refine or_congr_right ?_
    by_cases hsame : key' = key
    · subst hsame
      simp [hlookup]
    · simp [beq_false_of_ne hsame, Ne.symm hsame, List.lookup_cons]

/-- **An answer goes on record** if it is the first one for its key. -/
theorem get (h : Recorded mode outside calls (reached mode outside calls).cache) :
    Recorded mode outside (calls ++ [.get id compute])
      ((reached mode outside calls).answer id compute).cache := by
  rw [Session.answer]
  rcases h.getOrCompute_cases id fun _ ↦ (compute (reached mode outside calls).outside).1 with
    ⟨hkey, heq⟩ | ⟨key, kept, hkey, hlookup, heq⟩ | ⟨key, hkey, hlookup, heq⟩
  · rw [heq]
    refine h.get_of_kept fun key hkey' ↦ ?_
    rw [hkey] at hkey'
    cases hkey'
  · rw [heq]
    refine h.get_of_kept fun key' hkey' ↦ ?_
    rw [← Option.some.inj (hkey.symm.trans hkey'), ← lookup_isSome_iff_mem, hlookup]
    rfl
  · rw [heq]
    exact h.get_of_new hkey hlookup

end Recorded

/-- **All calls**, one after the other. -/
theorem recorded_reached (mode : CacheMode) (outside : σ) (calls : List (Call σ α)) :
    Recorded mode outside calls (reached mode outside calls).cache := by
  induction calls using List.reverseRecOn with
  | nil => exact .of_not_asked rfl rfl fun _ _ _ ↦ not_asked_nil
  | append_singleton calls call ih =>
    rw [reached_append]
    cases call with
    | get id compute => exact ih.get
    | clear => exact .of_not_asked ih.mode_eq rfl fun _ _ _ ↦ not_asked_clear

/-! ### What a cache answers, and how many results it keeps -/

variable (mode outside calls) in
/-- What a cache answers, by what was asked before. -/
theorem answer_cases (id : String) (compute : σ → α × σ) :
    (IsNew mode calls id ∧
      ((reached mode outside calls).answer id compute).computed = true ∧
      ((reached mode outside calls).answer id compute).result =
        (compute (reached mode outside calls).outside).1) ∨
    (¬IsNew mode calls id ∧
      ((reached mode outside calls).answer id compute).computed = false ∧
      ∃ key, mode.key? id = some key ∧ Computed mode outside calls key
        ((reached mode outside calls).answer id compute).result) := by
  have h := recorded_reached mode outside calls
  rw [Session.answer]
  rcases h.getOrCompute_cases id fun _ ↦ (compute (reached mode outside calls).outside).1 with
    ⟨hkey, heq⟩ | ⟨key, kept, hkey, hlookup, heq⟩ | ⟨key, hkey, hlookup, heq⟩
  · rw [heq]
    exact .inl ⟨fun _ _ _ _ ↦ CacheMode.not_same hkey, rfl, rfl⟩
  · rw [heq, h.isNew_iff hkey, hlookup]
    exact .inr ⟨nofun, rfl, key, hkey, h.lookup_eq_some.1 hlookup⟩
  · rw [heq, h.isNew_iff hkey]
    exact .inl ⟨hlookup, rfl, rfl⟩

/-- **When something is computed**: the identifier is new. -/
theorem computed_answer_iff :
    ((reached mode outside calls).answer id compute).computed = true ↔ IsNew mode calls id := by
  rcases answer_cases mode outside calls id compute with ⟨hnew, hcomputed, -⟩ | ⟨hold, hcomputed, -⟩
  · exact iff_of_true hcomputed hnew
  · exact iff_of_false (hcomputed ▸ Bool.false_ne_true) hold

/-- Only one result is computed first for a key. -/
theorem Computed.unique {a b : α} (ha : Computed mode outside calls key a)
    (hb : Computed mode outside calls key b) : a = b := by
  have h := recorded_reached mode outside calls
  exact Option.some.inj ((h.lookup_eq_some.2 ha).symm.trans (h.lookup_eq_some.2 hb))

/-- The keys of the results that are kept are those for which something was computed. -/
theorem mem_keys_iff :
    key ∈ (reached mode outside calls).cache.entries.map Prod.fst ↔
      ∃ before id compute, Asked calls before id compute ∧ mode.key? id = some key ∧
        ((reached mode outside before).answer id compute).computed = true := by
  have h := recorded_reached mode outside calls
  constructor
  · intro hmem
    obtain ⟨a, ha⟩ := Option.isSome_iff_exists.1 (lookup_isSome_iff_mem.2 hmem)
    obtain ⟨before, id, compute, ⟨hasked, hnew⟩, hkey, -⟩ := h.lookup_eq_some.1 ha
    exact ⟨before, id, compute, hasked, hkey, computed_answer_iff.2 hnew⟩
  · rintro ⟨before, id, compute, hasked, hkey, -⟩
    exact h.mem_of_asked hasked hkey

/-- **The first result for an identifier is kept.** This says what a cache answers after some
calls, and how many results it keeps. -/
structure KeepsFirst (mode : CacheMode) (outside : σ) (calls : List (Call σ α)) : Prop where
  /-- A result is computed just when the identifier is new. -/
  computed_iff : ∀ id compute,
    ((reached mode outside calls).answer id compute).computed = true ↔ IsNew mode calls id
  /-- A result that is computed is the answer. -/
  own : ∀ id compute, IsNew mode calls id →
    ((reached mode outside calls).answer id compute).result =
      (compute (reached mode outside calls).outside).1
  /-- Otherwise one that is the same was asked for first. -/
  exists_first : ∀ id, ¬IsNew mode calls id →
    ∃ before first computeFirst, IsFirst mode calls before first computeFirst ∧
      mode.Same first id
  /-- Then the answer is what was computed for that one. -/
  kept : ∀ id compute before first computeFirst, IsFirst mode calls before first computeFirst →
    mode.Same first id →
    ((reached mode outside calls).answer id compute).result =
      (computeFirst (reached mode outside before).outside).1
  /-- Without a cache every answer is computed. -/
  uncached : mode = .none → ∀ id compute,
    ((reached mode outside calls).answer id compute).computed = true ∧
      ((reached mode outside calls).answer id compute).result =
        (compute (reached mode outside calls).outside).1
  /-- One result is kept for each key for which something was computed. -/
  size_eq : ∃ keys : Finset String, (reached mode outside calls).cache.size = keys.card ∧
    ∀ key, key ∈ keys ↔ ∃ before id compute, Asked calls before id compute ∧
      mode.key? id = some key ∧ ((reached mode outside before).answer id compute).computed = true
  size_le_one : mode = .singleton → (reached mode outside calls).cache.size ≤ 1
  size_eq_zero : mode = .none → (reached mode outside calls).cache.size = 0

/-- **Caches keep first results.** This is so after any calls. -/
theorem keepsFirst_reached (mode : CacheMode) (outside : σ) (calls : List (Call σ α)) :
    KeepsFirst mode outside calls where
  computed_iff id compute := computed_answer_iff
  own id compute hnew := by
    rcases answer_cases mode outside calls id compute with ⟨-, -, hresult⟩ | ⟨hold, -⟩
    · exact hresult
    · exact absurd hnew hold
  exists_first id hold := by
    -- `α` may be empty: the computation of an earlier call serves for an answer to look at
    simp only [IsNew, not_forall] at hold
    obtain ⟨before, id', compute, hasked, hsame⟩ := hold
    rcases answer_cases mode outside calls id compute with ⟨hnew, -⟩ | ⟨-, -, key, hkey, hresult⟩
    · exact absurd (hnew before id' compute hasked) hsame
    · obtain ⟨before, first, computeFirst, hfirst, hkey', -⟩ := hresult
      exact ⟨before, first, computeFirst, hfirst, (CacheMode.same_iff hkey).2 hkey'⟩
  kept id compute before first computeFirst hfirst hsame := by
    rcases answer_cases mode outside calls id compute with ⟨hnew, -⟩ | ⟨-, -, key, hkey, hresult⟩
    · exact absurd hsame (hnew before first computeFirst hfirst.1)
    · exact hresult.unique ⟨before, first, computeFirst, hfirst,
        (CacheMode.same_iff hkey).1 hsame, rfl⟩
  size_eq := by
    refine ⟨((reached mode outside calls).cache.entries.map Prod.fst).toFinset, ?_, fun key ↦ ?_⟩
    · rw [List.toFinset_card_of_nodup (recorded_reached mode outside calls).nodup, List.length_map]
      rfl
    · rw [List.mem_toFinset, mem_keys_iff]
  size_le_one hmode := by
    have hkeys : (reached mode outside calls).cache.entries.map Prod.fst ⊆ [""] := by
      intro key hmem
      obtain ⟨_, _, _, _, hkey, _⟩ := mem_keys_iff.1 hmem
      rw [hmode] at hkey
      exact List.mem_singleton.2 (Option.some.inj hkey).symm
    have hlength := ((recorded_reached mode outside calls).nodup.subperm hkeys).length_le
    rwa [List.length_map] at hlength
  size_eq_zero hmode := by
    have hkeys : (reached mode outside calls).cache.entries.map Prod.fst ⊆ [] := by
      intro key hmem
      obtain ⟨_, _, _, _, hkey, _⟩ := mem_keys_iff.1 hmem
      rw [hmode] at hkey
      cases hkey
    rw [size, ← List.length_map Prod.fst, List.subset_nil.1 hkeys]
    rfl
  uncached hmode id compute := by
    rcases answer_cases mode outside calls id compute with ⟨-, hown⟩ | ⟨-, -, key, hkey, -⟩
    · exact hown
    · rw [hmode] at hkey
      cases hkey

/-- With a result for each identifier, the second `a` is answered from the cache, and a third one
after clearing is computed anew. -/
example :
    let tick : Nat → Nat × Nat := fun n ↦ (n, n + 1)
    let calls : List (Call Nat Nat) := [.get "a" tick, .get "a" tick, .get "b" tick]
    (reached .perCall 0 calls).cache.size = 2 ∧
      ((reached .perCall 0 (calls ++ [.clear])).answer "a" tick).result = 2 := by
  decide

end Cache

end TermRegistry
