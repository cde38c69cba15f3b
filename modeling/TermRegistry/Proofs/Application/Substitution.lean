import TermRegistry.Proofs.Application.Filling
import TermRegistry.Proofs.Legible
import TermRegistry.Proofs.Matching.Expansion

/-!
# Applying a rule is one simultaneous substitution

A term has blanks: the references and captures that occur in it, in the order of writing. Whether
substitution succeeds is a question about the blanks alone, and the first one that cannot be filled
is what the error names (`Term.substitute_eq`). If it succeeds, the result is the term with each of
its references replaced, once and all together (`Term.replaceReferences`).

So applying a rule comes to this. If its source does not match, there is no result; if it does, the
target is filled by the order of precedence of `Context.filling`, or the error is that of the first
blank that this leaves open (`Context.apply_of_matching`).

**Modifiers.** Substitution rebuilds entries and drops the modifiers of those without a declaration
type (`Term.pruned`). No term that can be written has any there (`Term.pruned_of_isWellFormed`), and
the rules of a set that is parsed can be written (`RuleSet.isWellFormed_of_ofTerm`,
`RuleSet.isWellFormed_of_mem`).
-/

namespace TermRegistry

namespace Term

variable {given : String → Option Term} {t u : Term} {name : String}

/-! ### Blanks -/

mutual

/-- **The blanks of a term**: the references and captures in it, those in internal listings
included, in the order of writing. -/
def blanks : Term → List Term
  | text _ => []
  | reference name => [reference name]
  | capture name => [capture name]
  | array items => blanksAll items
  | listing ⟨entries, _⟩ => blanksEntries entries
  | call _ ⟨entries, _⟩ none => blanksEntries entries
  | call _ ⟨entries, _⟩ (some internal) => blanksEntries entries ++ blanksEntries internal
  | rule source target => source.blanks ++ target.blanks

/-- The blanks of some terms. -/
def blanksAll : List Term → List Term
  | [] => []
  | t :: ts => t.blanks ++ blanksAll ts

/-- The blanks of the values of some entries. -/
def blanksEntries : List (Entry Term) → List Term
  | [] => []
  | ⟨_, _, t⟩ :: es => t.blanks ++ blanksEntries es

end

mutual

/-- A term holds a capture just when one of its blanks is one. -/
theorem hasCapture_eq : (t : Term) → t.hasCapture = t.blanks.any (·.capture?.isSome)
  | text _ | reference _ | capture _ => rfl
  | array items => anyCapture_eq_blanks items
  | listing ⟨entries, _⟩ => anyEntryCapture_eq_blanks entries
  | call _ ⟨entries, _⟩ none => anyEntryCapture_eq_blanks entries
  | call _ ⟨entries, _⟩ (some internal) => by
    rw [hasCapture, blanks, List.any_append, anyEntryCapture_eq_blanks entries,
      anyEntryCapture_eq_blanks internal]
  | rule source target => by
    rw [hasCapture, blanks, List.any_append, hasCapture_eq source, hasCapture_eq target]

theorem anyCapture_eq_blanks :
    (ts : List Term) → anyCapture ts = (blanksAll ts).any (·.capture?.isSome)
  | [] => rfl
  | t :: ts => by
    rw [anyCapture, blanksAll, List.any_append, hasCapture_eq t, anyCapture_eq_blanks ts]

theorem anyEntryCapture_eq_blanks :
    (es : List (Entry Term)) → anyEntryCapture es = (blanksEntries es).any (·.capture?.isSome)
  | [] => rfl
  | ⟨_, _, t⟩ :: es => by
    rw [anyEntryCapture, blanksEntries, List.any_append, hasCapture_eq t,
      anyEntryCapture_eq_blanks es]

end

/-- **Why a blank cannot be filled**: it is a capture, or a reference that nothing is given for. -/
def blankFault? (given : String → Option Term) : Term → Option Error
  | reference name => if (given name).isSome then none else some (.unresolved name)
  | capture name => some (.structural (.misplacedCapture name))
  | _ => none

/-- What is wrong with the first blank of a term that cannot be filled. -/
def fault? (given : String → Option Term) (t : Term) : Option Error :=
  t.blanks.findSome? (blankFault? given)

/-- **A term has a fault** just when it holds a capture or a reference that nothing is given for. -/
theorem isSome_fault? : (t.fault? given).isSome = true ↔
    t.hasCapture = true ∨ ∃ name, reference name ∈ t.blanks ∧ given name = none := by
  rw [fault?, List.findSome?_isSome_iff, hasCapture_eq, List.any_eq_true]
  constructor
  · rintro ⟨u, hu, hfault⟩
    cases u with
    | reference name =>
      refine .inr ⟨name, hu, Option.not_isSome_iff_eq_none.1 fun hgiven ↦ ?_⟩
      rw [blankFault?, if_pos hgiven] at hfault
      cases hfault
    | capture name => exact .inl ⟨_, hu, rfl⟩
    | _ => cases hfault
  · rintro (⟨u, hu, hcapture⟩ | ⟨name, hname, hgiven⟩)
    · refine ⟨u, hu, ?_⟩
      cases u with
      | capture name => rfl
      | _ => cases hcapture
    · exact ⟨_, hname, by rw [blankFault?, hgiven]; rfl⟩

/-! ### Modifiers -/

mutual

/-- The term without the modifiers of entries that have no declaration type. -/
def pruned : Term → Term
  | text s => text s
  | reference name => reference name
  | capture name => capture name
  | array items => array (prunedAll items)
  | listing ⟨entries, form⟩ => listing ⟨prunedEntries entries, form⟩
  | call name ⟨entries, form⟩ none => call name ⟨prunedEntries entries, form⟩ none
  | call name ⟨entries, form⟩ (some internal) =>
    call name ⟨prunedEntries entries, form⟩ (some (prunedEntries internal))
  | rule source target => rule source.pruned target.pruned

/-- Some terms without the modifiers of entries that have no declaration type. -/
def prunedAll : List Term → List Term
  | [] => []
  | t :: ts => t.pruned :: prunedAll ts

/-- Some entries, without their modifiers where they have no declaration type. -/
def prunedEntries : List (Entry Term) → List (Entry Term)
  | [] => []
  | ⟨label, modifiers, t⟩ :: es =>
    ⟨label, if label.type?.isSome then modifiers else [], t.pruned⟩ :: prunedEntries es

end

mutual

/-- **Terms that can be written have nothing to prune.** -/
theorem pruned_of_isWellFormed : (t : Term) → t.isWellFormed = true → t.pruned = t
  | text _, _ | reference _, _ | capture _, _ => rfl
  | array items, h => congrArg array (prunedAll_of_allWellFormed items h)
  | listing _, h => nomatch h
  | call name ⟨entries, form⟩ none, h => by
    rw [isWellFormed, Bool.and_eq_true, Bool.and_eq_true, Listing.areParameters,
      Bool.and_eq_true] at h
    rw [pruned, prunedEntries_of_entriesWellFormed entries h.2 fun e he ↦
      .inr (Bool.and_eq_true_iff.1 (List.all_eq_true.1 h.1.2.1 e he)).2]
  | call name ⟨entries, form⟩ (some internal), h => by
    rw [isWellFormed, Bool.and_eq_true, Bool.and_eq_true, Bool.and_eq_true, Bool.and_eq_true,
      Listing.areParameters, Bool.and_eq_true] at h
    obtain ⟨⟨⟨⟨-, hparameters⟩, hentries⟩, hstatements⟩, hinternal⟩ := h
    rw [pruned,
      prunedEntries_of_entriesWellFormed entries hentries fun e he ↦
        .inr (Bool.and_eq_true_iff.1 (List.all_eq_true.1 hparameters.1 e he)).2,
      prunedEntries_of_entriesWellFormed internal hinternal fun e he ↦
        Bool.or_eq_true_iff.1 (Bool.and_eq_true_iff.1 (List.all_eq_true.1 hstatements e he)).2]
  | rule source target, h => by
    rw [isWellFormed, Bool.and_eq_true] at h
    rw [pruned, pruned_of_isWellFormed source h.1, pruned_of_isWellFormed target h.2]

theorem prunedAll_of_allWellFormed :
    (ts : List Term) → allWellFormed ts = true → prunedAll ts = ts
  | [], _ => rfl
  | t :: ts, h => by
    rw [allWellFormed, Bool.and_eq_true] at h
    rw [prunedAll, pruned_of_isWellFormed t h.1, prunedAll_of_allWellFormed ts h.2]

theorem prunedEntries_of_entriesWellFormed :
    (es : List (Entry Term)) → entriesWellFormed es = true →
      (∀ e ∈ es, e.type?.isSome = true ∨ e.modifiers.isEmpty = true) → prunedEntries es = es
  | [], _, _ => rfl
  | ⟨label, modifiers, t⟩ :: es, h, hmodifiers => by
    rw [entriesWellFormed, Bool.and_eq_true] at h
    have hkept : (if label.type?.isSome then modifiers else []) = modifiers := by
      split
      · rfl
      · next htype =>
        have hempty := (hmodifiers _ List.mem_cons_self).resolve_left htype
        exact (List.isEmpty_iff.1 hempty).symm
    rw [prunedEntries, pruned_of_isWellFormed t h.1, hkept,
      prunedEntries_of_entriesWellFormed es h.2 fun e he ↦
        hmodifiers e (List.mem_cons_of_mem _ he)]

end

/-! ### Substitution -/

/-- What is put in for a reference: what is given for it, or else the reference itself. -/
def fill (given : String → Option Term) (name : String) : Term :=
  (given name).getD (reference name)

mutual

/-- **Only the references of a term matter** for what they are replaced by. -/
theorem replaceReferences_congr_blanks {f g : String → Term} : (t : Term) →
    (∀ n, reference n ∈ t.blanks → f n = g n) → t.replaceReferences f = t.replaceReferences g
  | text _, _ | capture _, _ => rfl
  | reference name, h => h name List.mem_cons_self
  | array items, h => congrArg array (replaceReferencesAll_congr_blanks items h)
  | listing ⟨entries, form⟩, h => by
    rw [replaceReferences, replaceReferences, replaceReferencesEntries_congr_blanks entries h]
  | call name ⟨entries, form⟩ none, h => by
    rw [replaceReferences, replaceReferences, replaceReferencesEntries_congr_blanks entries h]
  | call name ⟨entries, form⟩ (some internal), h => by
    rw [replaceReferences, replaceReferences,
      replaceReferencesEntries_congr_blanks entries fun n hn ↦ h n (List.mem_append_left _ hn),
      replaceReferencesEntries_congr_blanks internal fun n hn ↦ h n (List.mem_append_right _ hn)]
  | rule source target, h => by
    rw [replaceReferences, replaceReferences,
      replaceReferences_congr_blanks source fun n hn ↦ h n (List.mem_append_left _ hn),
      replaceReferences_congr_blanks target fun n hn ↦ h n (List.mem_append_right _ hn)]

theorem replaceReferencesAll_congr_blanks {f g : String → Term} : (ts : List Term) →
    (∀ n, reference n ∈ blanksAll ts → f n = g n) →
      replaceReferencesAll f ts = replaceReferencesAll g ts
  | [], _ => rfl
  | t :: ts, h => by
    rw [replaceReferencesAll, replaceReferencesAll,
      replaceReferences_congr_blanks t fun n hn ↦ h n (List.mem_append_left _ hn),
      replaceReferencesAll_congr_blanks ts fun n hn ↦ h n (List.mem_append_right _ hn)]

theorem replaceReferencesEntries_congr_blanks {f g : String → Term} : (es : List (Entry Term)) →
    (∀ n, reference n ∈ blanksEntries es → f n = g n) →
      replaceReferencesEntries f es = replaceReferencesEntries g es
  | [], _ => rfl
  | ⟨_, _, t⟩ :: es, h => by
    rw [replaceReferencesEntries, replaceReferencesEntries,
      replaceReferences_congr_blanks t fun n hn ↦ h n (List.mem_append_left _ hn),
      replaceReferencesEntries_congr_blanks es fun n hn ↦ h n (List.mem_append_right _ hn)]

end

/-- A result, unless there is a fault. -/
def unlessFault {α : Type} (fault : Option Error) (a : α) : Except Error α :=
  match fault with
  | some e => .error e
  | none => .ok a

/-- Of two faults in a row the first one counts. -/
theorem unlessFault_bind {α β : Type} (fault fault' : Option Error) (a : α) (f : α → β) :
    (unlessFault fault a).bind (fun a ↦ unlessFault fault' (f a)) =
      unlessFault (fault.or fault') (f a) := by
  cases fault <;> rfl

theorem unlessFault_map {α β : Type} (fault : Option Error) (a : α) (f : α → β) :
    (unlessFault fault a).bind (fun a ↦ .ok (f a)) = unlessFault fault (f a) := by
  cases fault <;> rfl

mutual

/-- **Substitution** fails at the first blank that cannot be filled, and else replaces all
references at once. -/
theorem substitute_eq (given : String → Option Term) : (t : Term) →
    t.substitute given = unlessFault (t.fault? given) (t.pruned.replaceReferences (fill given))
  | text _ | capture _ => rfl
  | reference name => by
    rw [substitute, fault?, blanks, List.findSome?_singleton, blankFault?]
    show _ = unlessFault _ ((given name).getD (reference name))
    cases given name <;> rfl
  | array items => by
    rw [substitute, substituteAll_eq given items]
    exact unlessFault_map _ _ array
  | listing ⟨entries, form⟩ => by
    rw [substitute, substituteEntries_eq given entries]
    exact unlessFault_map _ _ fun es ↦ listing ⟨es, form⟩
  | call name ⟨entries, form⟩ none => by
    rw [substitute, substituteEntries_eq given entries]
    exact unlessFault_map _ _ fun es ↦ call name ⟨es, form⟩ none
  | call name ⟨entries, form⟩ (some internal) => by
    rw [substitute, substituteEntries_eq given entries, substituteInternal,
      substituteEntries_eq given internal, fault?, blanks, List.findSome?_append]
    refine Eq.trans (congrArg _ (funext fun es ↦ ?_))
      (unlessFault_bind _ _ _ fun es ↦ call name ⟨es, form⟩ (some _))
    exact (congrArg (Except.bind · _) (unlessFault_map _ _ some)).trans
      (unlessFault_map _ _ fun is ↦ call name ⟨es, form⟩ is)
  | rule source target => by
    rw [substitute, substitute_eq given source, substitute_eq given target]
    have hfault : (rule source target).fault? given =
        (source.fault? given).or (target.fault? given) := List.findSome?_append
    rw [hfault]
    refine Eq.trans (congrArg _ (funext fun s ↦ ?_)) (unlessFault_bind _ _ _ fun s ↦ rule s _)
    exact unlessFault_map _ _ (rule s)

theorem substituteAll_eq (given : String → Option Term) : (ts : List Term) →
    substituteAll given ts = unlessFault ((blanksAll ts).findSome? (blankFault? given))
      (replaceReferencesAll (fill given) (prunedAll ts))
  | [] => rfl
  | t :: ts => by
    rw [substituteAll, substitute_eq given t, substituteAll_eq given ts, blanksAll,
      List.findSome?_append]
    refine Eq.trans (congrArg _ (funext fun t ↦ ?_)) (unlessFault_bind _ _ _ fun t ↦ t :: _)
    exact unlessFault_map _ _ (t :: ·)

theorem substituteEntries_eq (given : String → Option Term) : (es : List (Entry Term)) →
    substituteEntries given es = unlessFault ((blanksEntries es).findSome? (blankFault? given))
      (replaceReferencesEntries (fill given) (prunedEntries es))
  | [] => rfl
  | ⟨label, modifiers, t⟩ :: es => by
    rw [substituteEntries, substitute_eq given t, substituteEntries_eq given es, blanksEntries,
      List.findSome?_append]
    let kept := if label.type?.isSome then modifiers else []
    refine Eq.trans (congrArg _ (funext fun t ↦ ?_))
      (unlessFault_bind _ _ _ fun t ↦ (⟨label, kept, t⟩ : Entry Term) :: _)
    exact unlessFault_map _ _ ((⟨label, kept, t⟩ : Entry Term) :: ·)

end

theorem unlessFault_eq_ok {α : Type} {fault : Option Error} {a : α}
    (h : ¬ fault.isSome = true) : unlessFault fault a = .ok a := by
  rw [Option.not_isSome_iff_eq_none.1 h]
  rfl

theorem exists_unlessFault_eq_error {α : Type} {fault : Option Error} (h : fault.isSome = true)
    (a : α) : ∃ e, unlessFault fault a = .error e := by
  obtain ⟨e, rfl⟩ := Option.isSome_iff_exists.1 h
  exact ⟨e, rfl⟩

end Term

/-! ### Applying a rule -/

/-- The rules of a set that can be written can be written one by one. -/
theorem RuleSet.isWellFormed_of_mem {s : RuleSet} (h : s.toTerm.isWellFormed = true)
    {r : String × Rule} (hr : r ∈ s.rules) : r.2.toTerm.isWellFormed = true := by
  have hrules : Term.entriesWellFormed (s.rules.map statement) = true :=
    (Bool.and_eq_true_iff.1 h).2
  rw [Term.entriesWellFormed_eq, List.all_map] at hrules
  exact List.all_eq_true.1 hrules r hr

namespace Context

variable {ctx : Context} {rules : RuleSet} {name : String} {r : Rule} {source : Term}
  {b extra extra' : Binding}

theorem result_applyRule (hr : rules.get? name = some r) (source : Term) (extra : Binding) :
    (ctx.applyRule rules name source extra).result = r.apply ctx.surroundings extra source := by
  rw [applyRule, hr]
  show (Reported.of (r.apply ctx.surroundings extra source)).result = _
  cases r.apply ctx.surroundings extra source <;> rfl

/-- Applied to what its source matches, a rule yields its target, filled by the order of
precedence. -/
theorem apply_of_matching (extra : Binding)
    (hb : r.source.matching ctx.storage source = .ok (some b)) :
    r.apply ctx.surroundings extra source =
      (r.target.substitute (ctx.filling b extra)).map some := by
  have hgiven : (fun n ↦ ((b.union extra).withSuccessors.get? n).or (ctx.given n)) =
      ctx.filling b extra := funext (ctx.filling_eq (Term.distinct_of_matching hb) extra)
  have happly : r.apply ctx.surroundings extra source = (r.target.substitute fun n ↦
      ((b.union extra).withSuccessors.get? n).or (ctx.given n)).bind fun t ↦ .ok (some t) := by
    rw [Rule.apply]
    show (r.source.matching ctx.storage source).bind _ = _
    rw [hb]
    rfl
  rw [happly, hgiven]
  cases r.target.substitute (ctx.filling b extra) <;> rfl

/-- **Extra bindings count by what they bind**, and not by the order they are in. -/
theorem filling_congr (ctx : Context) (b : Binding) (h : extra'.get? = extra.get?) :
    ctx.filling b extra' = ctx.filling b extra := by
  funext n
  rw [filling, filling, h]

/-- **Applying a rule is one simultaneous substitution.** Take a rule that can be written, as every
rule that is parsed can be. If its source does not match, there is no result, and an error of
matching is handed on. If it matches, the result is an error just when the target holds a capture or
a reference that nothing fills; else it is the target with every reference in it replaced by what
fills it, and all else as it was. The order of the pairs in the bindings makes no difference. -/
theorem applyRule_substitutes (ctx : Context) (rules : RuleSet) (name : String) (r : Rule)
    (source : Term) (extra : Binding) (hr : rules.get? name = some r)
    (hwritten : r.toTerm.isWellFormed = true) :
    (∀ e, r.source.matching ctx.storage source = .error e →
      (ctx.applyRule rules name source extra).result = .error e) ∧
    (r.source.matching ctx.storage source = .ok none →
      (ctx.applyRule rules name source extra).result = .ok none) ∧
    ∀ b, r.source.matching ctx.storage source = .ok (some b) →
      (r.target.hasCapture = true ∨
          (∃ n, .reference n ∈ r.target.blanks ∧ ctx.filling b extra n = none) →
        ∃ e, (ctx.applyRule rules name source extra).result = .error e) ∧
      (r.target.hasCapture = false →
          (∀ n, .reference n ∈ r.target.blanks → ∃ t, ctx.filling b extra n = some t) →
        (ctx.applyRule rules name source extra).result =
          .ok (some (r.target.replaceReferences (Term.fill (ctx.filling b extra))))) ∧
      (∀ m : Binding, m.entries.Perm (b.union extra).entries →
        (ctx.applyRule rules name source extra).result =
          (r.target.substitute fun n ↦ (m.withSuccessors.get? n).or (ctx.given n)).map some) ∧
      ∀ extra' : Binding, extra'.get? = extra.get? →
        (ctx.applyRule rules name source extra').result =
          (ctx.applyRule rules name source extra).result := by
  have hresult (extra : Binding) : (ctx.applyRule rules name source extra).result =
      r.apply ctx.surroundings extra source := result_applyRule hr source extra
  refine ⟨fun e he ↦ ?_, fun hnone ↦ ?_, fun b hb ↦ ?_⟩
  · rw [hresult, Rule.apply]
    show (r.source.matching ctx.storage source).bind _ = _
    rw [he]
    rfl
  · rw [hresult, Rule.apply]
    show (r.source.matching ctx.storage source).bind _ = _
    rw [hnone]
    rfl
  · -- What is substituted depends on what the names stand for, not on how the bindings are listed:
    -- another order of the bindings, or extra ones with the same values, change nothing in
    -- `filling`.
    have hpruned : r.target.pruned = r.target :=
      Term.pruned_of_isWellFormed r.target (Bool.and_eq_true_iff.1 hwritten).2
    have happlied := apply_of_matching extra hb
    rw [Term.substitute_eq, hpruned] at happlied
    refine ⟨fun hfault ↦ ?_, fun hcapture hfilled ↦ ?_, fun m hm ↦ ?_, fun extra' hextra ↦ ?_⟩
    · obtain ⟨e, he⟩ := Term.exists_unlessFault_eq_error (Term.isSome_fault?.2 hfault)
        (r.target.replaceReferences (Term.fill (ctx.filling b extra)))
      exact ⟨e, by rw [hresult, happlied, he]; rfl⟩
    · have hfault : ¬ (r.target.fault? (ctx.filling b extra)).isSome = true := by
        rw [Term.isSome_fault?, hcapture]
        rintro (h | ⟨n, hn, hnone⟩)
        · cases h
        · obtain ⟨t, ht⟩ := hfilled n hn
          rw [hnone] at ht
          cases ht
      rw [hresult, happlied, Term.unlessFault_eq_ok hfault]
      rfl
    · have hdistinct := (Term.distinct_of_matching hb).union extra
      rw [hresult, apply_of_matching extra hb, hdistinct.get?_withSuccessors_of_perm hm]
      refine congrArg (fun given ↦ (r.target.substitute given).map some) (funext fun n ↦ ?_)
      exact (ctx.filling_eq (Term.distinct_of_matching hb) extra n).symm
    · rw [hresult, hresult, apply_of_matching extra' hb, apply_of_matching extra hb,
        filling_congr ctx b hextra]

/-- A capture, the successor of what it is bound to, and an extra binding. -/
theorem applyRule_substitutes_next :
    let v (n : Term) : Term := .call "V" ⟨[⟨.named "n", [], n⟩], .parameters⟩ none
    let rules : RuleSet := ⟨[("next", ⟨v (.capture "n"),
      .array [v (.reference "n"), .reference "n++", .reference "x"]⟩)], by decide⟩
    ((empty 0 {}).applyRule rules "next" (v (.text "09")) ⟨[("x", .reference "n")]⟩).result =
      .ok (some (.array [v (.text "09"), .text "10", .reference "n"])) := by
  intro v rules
  let b : Binding := ⟨[("n", .text "09"), ("", v (.text "09"))]⟩
  let extra : Binding := ⟨[("x", .reference "n")]⟩
  obtain ⟨-, -, hmatch⟩ := applyRule_substitutes (empty 0 {}) rules "next" _ (v (.text "09")) extra
    rfl (by decide)
  obtain ⟨-, hfilled, -⟩ := hmatch b rfl
  have hblanks : ∀ u ∈ [Term.reference "n", .reference "n++", .reference "x"],
      ((empty 0 {}).filling b extra (u.reference?.getD "")).isSome = true := by decide
  exact hfilled rfl fun n hn ↦ Option.isSome_iff_exists.1 (hblanks (.reference n) hn)

end Context

end TermRegistry
