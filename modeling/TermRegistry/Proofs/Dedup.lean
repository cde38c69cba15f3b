import TermRegistry.Proofs.Dedup.Grounded
import TermRegistry.Proofs.Dedup.Written

/-!
# A definition finds the entry that was made for it

Asking for a definition that is not there makes an entry, and asking for it again finds that entry,
however its named parameters are ordered: `Context.getOrConstruct_idempotent`. Three things have to
hold together for this.

* The entry that was made matches the definition, because its term has all that is written in it
  (`Builds.relates_toTerm`).
* No other entry does. An entry that did not match before still does not, since names that are
  mentioned keep their meaning (`Context.Setting.relates_iff`).
* Where several entries match, the choice among them does not depend on the order of parameters
  either. It falls on the one that matches the definition in turn. The entries to choose from may
  hold defaults that nothing is known about, but an entry that matches both ways has no captures
  (`Relates.captures_eq_nil_of_mutual`).
-/

namespace TermRegistry

namespace Context

variable {ctx made after : Context} {t t' : Term} {k : Kept} {N : Set String} {ns : Namespace}

/-! ### The single entry of a pattern -/

/-- If no entry is matched with an error, those are left that satisfy what matching decides. -/
theorem matched_eq_ok {s : Storage} {pattern : Term} {ks : List Kept} {P : Kept → Prop}
    [DecidablePred P] (h : ∀ k ∈ ks, ∃ outcome, pattern.matching s k.toTerm = .ok outcome ∧
      (outcome.isSome = true ↔ P k)) : matched s pattern ks = .ok (ks.filter P) := by
  induction ks with
  | nil => rfl
  | cons k ks ih =>
    obtain ⟨outcome, houtcome, hP⟩ := h k List.mem_cons_self
    have hrest := ih fun k hk ↦ h k (List.mem_cons_of_mem _ hk)
    have hkept : outcome.isSome = decide (P k) :=
      Bool.eq_iff_iff.2 (hP.trans decide_eq_true_iff.symm)
    rw [matched, houtcome, hrest, List.filter_cons, ← hkept]
    rfl

/-- Of entries that are told apart, a condition that only one satisfies leaves that one. -/
theorem filter_eq_singleton {ks : List Kept} {p : Kept → Bool} (hnodup : ks.Nodup) (hk : k ∈ ks)
    (hp : ∀ l ∈ ks, p l = true ↔ l = k) : ks.filter p = [k] := by
  have hsame : ks.filter p = ks.filter (· == k) :=
    List.filter_congr fun l hl ↦ Bool.eq_iff_iff.2 ((hp l hl).trans beq_iff_eq.symm)
  rw [hsame, List.filter_beq, List.count_eq_one_of_mem hnodup hk, List.replicate_one]

theorem singleMatch_of_matched_single
    (h : matched ctx.storage t (ctx.inNamespace ns) = .ok [k]) :
    ctx.singleMatch ns t = .ok (some k) := by
  rw [singleMatch, h]
  rfl

theorem matched_eq_nil_of_singleMatch {found : List Kept}
    (hfound : matched ctx.storage t (ctx.inNamespace ns) = .ok found)
    (h : ctx.singleMatch ns t = .ok none) : found = [] := by
  rw [singleMatch, hfound] at h
  -- One entry is handed out, and several are one or ambiguous.
  match found with
  | [] => rfl
  | [k] => cases h
  | k :: k' :: ks =>
    obtain ⟨_, hpure, h⟩ := bind_eq_ok.1 h
    cases hpure
    dsimp only at h
    split at h <;> cases h

/-- The choice depends on what is matched and on what matches in turn. -/
theorem singleMatch_congr {found : List Kept}
    (h' : matched ctx.storage t' (ctx.inNamespace ns) = .ok found)
    (h : matched ctx.storage t (ctx.inNamespace ns) = .ok found)
    (hback : ∀ k ∈ found, k.toTerm.matches ctx.storage t' = k.toTerm.matches ctx.storage t) :
    ctx.singleMatch ns t' = ctx.singleMatch ns t := by
  have hexact : (found.filter fun k ↦ k.toTerm.matches ctx.storage t') =
      found.filter fun k ↦ k.toTerm.matches ctx.storage t := List.filter_congr hback
  rw [singleMatch, singleMatch, h', h]
  -- Only of several entries the exact ones are singled out.
  rcases found with - | ⟨k, - | ⟨k', ks⟩⟩
  · rfl
  · rfl
  · dsimp only [bind, Except.bind]
    rw [hexact]

/-- **A definition that matches a single entry finds it**, and nothing is changed. -/
theorem getOrConstruct_of_singleMatch (ht : t.reference? = none)
    (h : ctx.singleMatch ns t = .ok (some k)) :
    (ctx.getOrConstruct ns t).result = .ok k ∧ (ctx.getOrConstruct ns t).context = ctx := by
  have houtcome : Build.outcome (Build.findOrBuild t ns) ⟨ctx, []⟩ = (.ok k, ⟨ctx, []⟩) := by
    rw [Build.findOrBuild_eq ht, Build.findOrKeep, Build.outcome_matchOr, h]
  exact perform_of_outcome houtcome

/-- A definition that matches ambiguously is an error. -/
theorem getOrConstruct_of_singleMatch_error {e : Error} (ht : t.reference? = none)
    (h : ctx.singleMatch ns t = .error e) : (ctx.getOrConstruct ns t).result = .error e := by
  rw [getOrConstruct, result_perform, Build.findOrBuild_eq ht, Build.findOrKeep,
    Build.outcome_matchOr, h]

theorem getOrConstruct_reference {name : String} (h : ctx.find? ns name = some k) :
    (ctx.getOrConstruct ns (.reference name)).result = .ok k ∧
      (ctx.getOrConstruct ns (.reference name)).context = ctx := by
  have houtcome : Build.outcome (Build.findOrBuild (.reference name) ns) ⟨ctx, []⟩ =
      (.ok k, ⟨ctx, []⟩) := by
    rw [Build.findOrBuild, Build.outcome_ask, referred, h]
  exact perform_of_outcome houtcome

/-! ### What is matched in the setting -/

namespace Setting

open Classical in
/-- **What a grounded term matches in a namespace** are the entries that it is related to. -/
theorem matched_eq (h : Setting ctx N made) (ht : ctx.Grounded t)
    (htN : ∀ x ∈ t.references, x ∈ N) (ns : Namespace) :
    matched made.storage t (made.inNamespace ns) =
      .ok ((made.inNamespace ns).filter fun k ↦ Relates ctx.storage.resolve nothing t k.toTerm) :=
  matched_eq_ok fun k hk ↦ h.exists_matching ht htN
    (h.mentions k (mem_entries_of_mem_inNamespace h.coherent' hk))

/-- **The order of named entries makes no difference** to the single entry that is matched. -/
theorem singleMatch_reorder (h : Setting ctx N made) (ht : ctx.Grounded t)
    (htN : ∀ x ∈ t.references, x ∈ N) (hr : Reordered t' t) (ns : Namespace) :
    made.singleMatch ns t' = made.singleMatch ns t := by
  classical
  have ht' : ctx.Grounded t' := ht.reorder hr
  have htN' : ∀ x ∈ t'.references, x ∈ N := fun x hx ↦ htN x (hr.references_subset hx)
  have hforth (c : Term) : Relates ctx.storage.resolve nothing t' c ↔
      Relates ctx.storage.resolve nothing t c :=
    ⟨fun hrel ↦ hrel.reorder_pattern hr.symm, fun hrel ↦ hrel.reorder_pattern hr⟩
  have hback (c : Term) : Relates ctx.storage.resolve nothing c t' ↔
      Relates ctx.storage.resolve nothing c t :=
    ⟨fun hrel ↦ hrel.reorder_candidate hr.symm ht'.tidy,
      fun hrel ↦ hrel.reorder_candidate hr ht.tidy⟩
  have hmatched' := h.matched_eq ht' htN' ns
  simp only [hforth] at hmatched'
  refine singleMatch_congr hmatched' (h.matched_eq ht htN ns) fun k hk ↦ ?_
  obtain ⟨hmem, hrel⟩ := List.mem_filter.1 hk
  have hrel := of_decide_eq_true hrel
  have hkN := h.mentions k (mem_entries_of_mem_inNamespace h.coherent' hmem)
  rw [Bool.eq_iff_iff, h.matches_iff ht' htN' hkN ((hforth _).2 hrel),
    h.matches_iff ht htN hkN hrel, hback]

/-- **A new entry that a definition matches is the single one** if there was none before. -/
theorem singleMatch_of_new (h : Setting ctx N made) (h' : Setting ctx N after)
    (ht : ctx.Grounded t) (htN : ∀ x ∈ t.references, x ∈ N)
    (hnone : made.singleMatch ns t = .ok none)
    (hnew : after.inNamespace ns = made.inNamespace ns ++ [k])
    (hk : Relates ctx.storage.resolve nothing t k.toTerm) :
    after.singleMatch ns t = .ok (some k) := by
  classical
  have hold := matched_eq_nil_of_singleMatch (h.matched_eq ht htN ns) hnone
  have hself : [k].filter (fun k ↦ Relates ctx.storage.resolve nothing t k.toTerm) = [k] :=
    List.filter_cons_of_pos (decide_eq_true hk)
  refine singleMatch_of_matched_single ((h'.matched_eq ht htN ns).trans (congrArg Except.ok ?_))
  rw [hnew, List.filter_append, hold, hself, List.nil_append]

end Setting

end Context

/-! ### Asking again -/

/-- **The entry of a definition is the single one that it matches** when the construction is
over. -/
theorem Builds.singleMatch {ctx after : Context} {t : Term} {ns : Namespace} {k : Kept}
    (h : Builds ctx (.entry t ns k) after) (ht : t.reference? = none) (hc : ctx.Coherent)
    (hctx : ctx.AllGrounded) (hgrounded : ctx.Grounded t)
    (hgeneric : ∀ p ∈ ctx.factories.registered, p.blueprint.genericName = p.name)
    (hpositional : ∀ name l internal, t = .call name l internal → l.isPositional = false)
    (hmentions : ∀ x ∈ t.references, x ∉ Context.newNames ctx after)
    (hnew : ∀ l ∈ after.entries, ∀ x ∈ l.toTerm.references, x ∉ Context.newNames ctx after) :
    after.singleMatch ns t = .ok (some k) := by
  cases h with
  | referred => cases ht
  | matched _ h | matchedLater _ _ _ h => exact h
  | @made _ ctx' _ _ x _ _ hx hnone hfree =>
    obtain ⟨js, hgrows⟩ := hx.grows
    have hgrows : ctx.Grows js ctx' := .trans (.raised (.mint ctx ns)) hgrows
    have hkept : ctx'.Grows _ _ := .kept (.refl ctx') hfree hx.suits (.refl _)
    have hrelates : Relates ctx.storage.resolve nothing t x.toTerm :=
      hx.relates_toTerm hgeneric ht (Term.captures_eq_nil t hgrounded.captureFree) hgrounded.tidy
        hpositional
    exact (hctx.setting hc hgrows hkept hnew).singleMatch_of_new
      (hctx.setting hc (hgrows.trans hkept) (.refl _) hnew) hgrounded hmentions hnone
      (Context.inNamespace_keep (hgrows.coherent hc) hfree) hrelates

namespace Context

/-- What has been asked for is the single entry that its definition matches afterwards, and the
names that the definition mentions have kept their meaning. -/
theorem singleMatch_of_getOrConstruct (hc : ctx.Coherent)
    (hgeneric : ∀ p ∈ ctx.factories.registered, p.blueprint.genericName = p.name)
    (hall : ctx.AllGrounded) (ht : ctx.Grounded t) (href : t.reference? = none)
    (hpositional : ∀ name l internal, t = .call name l internal → l.isPositional = false)
    (hk : (ctx.getOrConstruct ns t).result = .ok k)
    (hnew : ∀ x ∈ newNames ctx (ctx.getOrConstruct ns t).context, x ∉ t.references ∧
      ∀ l ∈ (ctx.getOrConstruct ns t).context.entries, x ∉ l.toTerm.references) :
    let after := (ctx.getOrConstruct ns t).context
    after.singleMatch ns t = .ok (some k) ∧
      Setting ctx {x | x ∉ newNames ctx after} after ∧
      ∀ x ∈ t.references, x ∉ newNames ctx after := by
  intro after
  have hbuilds : Builds ctx (.entry t ns k) after :=
    perform_ok (Build.meets_findOrBuild t ns) hc hk
  obtain ⟨js, hgrows⟩ := hbuilds.grows
  have hmentions : ∀ x ∈ t.references, x ∉ newNames ctx after := fun x hx hxnew ↦
    (hnew x hxnew).1 hx
  have hstored : ∀ l ∈ after.entries, ∀ x ∈ l.toTerm.references, x ∉ newNames ctx after :=
    fun l hl x hx hxnew ↦ (hnew x hxnew).2 l hl hx
  exact ⟨hbuilds.singleMatch href hc hall ht hgeneric hpositional hmentions hstored,
    hall.setting hc hgrows (.refl after) hstored, hmentions⟩

/-- **Asking for a definition again finds the same entry and changes nothing**, whatever the order
of its named parameters. The context and the definition are grounded, components are made under
their own generic names, parameters at the top are named, and no name that is new after the first
call is mentioned in the definition or in a term that is stored by then. The last condition is
needed for defaults too: one that mentions a new name may come to match the definition. -/
theorem getOrConstruct_idempotent {ctx : Context} {ns : Namespace} {t t' : Term} {k : Kept}
    (hctx : ctx.Reachable)
    (hgeneric : ∀ p ∈ ctx.factories.registered, p.blueprint.genericName = p.name)
    (hall : ctx.AllGrounded) (ht : ctx.Grounded t)
    (hpositional : ∀ name l internal, t = .call name l internal → l.isPositional = false)
    (hk : (ctx.getOrConstruct ns t).result = .ok k)
    (hnew : ∀ x ∈ newNames ctx (ctx.getOrConstruct ns t).context, x ∉ t.references ∧
      ∀ l ∈ (ctx.getOrConstruct ns t).context.entries, x ∉ l.toTerm.references)
    (hr : Reordered t' t) :
    let after := (ctx.getOrConstruct ns t).context
    (after.getOrConstruct ns t').result = .ok k ∧ (after.getOrConstruct ns t').context = after := by
  intro after
  have hc : ctx.Coherent := hctx.coherent
  cases href : t.reference? with
  -- A reference is a rearrangement of nothing but itself.
  | some name =>
    obtain rfl := hr.eq_of_reference href
    obtain rfl := Term.eq_reference_of_reference? href
    have hbuilds : Builds ctx (.entry (.reference name) ns k) after :=
      perform_ok (Build.meets_findOrBuild _ ns) hc hk
    clear_value after
    cases hbuilds with
    | referred h => exact getOrConstruct_reference h
    | matched ht | matchedLater ht | made ht => cases ht
  | none =>
    -- The definition matches one entry now, and a rearrangement of it matches just the same ones.
    obtain ⟨hfound, hsetting, hmentions⟩ :=
      singleMatch_of_getOrConstruct hc hgeneric hall ht href hpositional hk hnew
    rw [← hsetting.singleMatch_reorder ht hmentions hr] at hfound
    refine getOrConstruct_of_singleMatch ?_ hfound
    cases href' : t'.reference? with
    | none => rfl
    | some name =>
      obtain rfl := hr.symm.eq_of_reference href'
      exact href'.symm.trans href

/-- A feature with a function in it is made and found again, with the parameters of both in another
order. -/
theorem getOrConstruct_idempotent_nested :
    let factories := (Factories.standard.withFallback .feature).withFallback .strFn
    let entry (name : String) (t : Term) : Entry Term := ⟨.named name, [], t⟩
    let call (name : String) (es : List (Entry Term)) : Term := .call name ⟨es, .parameters⟩ none
    let p := entry "p" (.text "1")
    let q := entry "q" (.text "2")
    let v := entry "v" (.reference "x")
    let t := call "F" [v, entry "w" (call "G" [p, q])]
    let t' := call "F" [entry "w" (call "G" [q, p]), v]
    let ctx := ((Context.empty 0 factories).construct .value (some "x") (.text "1")).context
    let after := (ctx.getOrConstruct .feature t).context
    after.order = [(.value, "x"), (.strFn, "1"), (.feature, "0")] ∧
      ∃ k, (ctx.getOrConstruct .feature t).result = .ok k ∧
        (after.getOrConstruct .feature t').result = .ok k ∧
          (after.getOrConstruct .feature t').context = after := by
  intro factories entry call p q v t t' ctx after
  have hctx : ctx.Reachable :=
    .after (.empty 0 factories) (.construct .value (some "x") (.text "1"))
  have hgeneric : ∀ p ∈ ctx.factories.registered, p.blueprint.genericName = p.name := by
    decide +kernel
  have hall : ctx.AllGrounded := ⟨by decide +kernel, .of_rank (fun _ ↦ 0) (by decide +kernel)⟩
  have ht : ctx.Grounded t := by decide +kernel
  have hpositional : ∀ name l internal, t = .call name l internal → l.isPositional = false := by
    intro name l internal heq
    rw [← (Term.call.inj heq).2.1]
    rfl
  have hmade : (ctx.getOrConstruct .feature t).result.isOk = true := by decide +kernel
  have hnew : ∀ e ∈ after.order, e ∉ ctx.order → e.2 ∉ t.references ∧
      ∀ l ∈ after.entries, e.2 ∉ l.toTerm.references := by decide +kernel
  have horder : after.order = [(.value, "x"), (.strFn, "1"), (.feature, "0")] := by decide +kernel
  have hinner : Reordered (call "G" [q, p]) (call "G" [p, q]) :=
    .call [(q, q), (p, p)] (by decide) (fun d hd ↦ by
      rcases List.mem_cons.1 hd with rfl | hd
      · exact .refl _
      · obtain rfl := List.mem_singleton.1 hd
        exact .refl _) (.inl rfl) (.inr ⟨by decide, by decide⟩)
  have hr : Reordered t' t :=
    .call [(entry "w" (call "G" [q, p]), entry "w" (call "G" [p, q])), (v, v)] (by decide)
      (fun d hd ↦ by
        rcases List.mem_cons.1 hd with rfl | hd
        · exact hinner
        · obtain rfl := List.mem_singleton.1 hd
          exact .refl _) (.inl rfl) (.inr ⟨by decide, by decide⟩)
  clear_value ctx t t'
  obtain ⟨k, hk⟩ := exists_eq_ok hmade
  refine ⟨horder, k, hk, getOrConstruct_idempotent hctx hgeneric hall ht hpositional hk ?_ hr⟩
  rintro x ⟨ns, hx, hx'⟩
  exact hnew (ns, x) hx hx'

/-- The name of the new entry is the default of a parameter of another one, which comes to match
what the entry was made for. -/
example :
    let schema : List Parameter :=
      [{ name := "x", kind := .entry .feature, default? := some (.reference "0") },
        { name := "y", kind := .text, default? := some (.text "1") }]
    let call (es : List (Entry Term)) : Term := .call "F" ⟨es, .parameters⟩ none
    let t := call [⟨.named "x", [], call []⟩]
    let ctx := Context.empty 0 ⟨[.ofSchema .feature "F" schema], []⟩
    let after := (ctx.getOrConstruct .feature t).context
    after.order = [(.feature, "1"), (.feature, "0")] ∧
      (after.getOrConstruct .feature t).result = .error (.ambiguous .feature ["1", "0"]) := by
  decide +kernel

end Context

end TermRegistry
