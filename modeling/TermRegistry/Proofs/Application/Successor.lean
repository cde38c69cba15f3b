import TermRegistry.Proofs.Application.Instance

/-!
# Successors of numerals

A target may refer to the successor `n++` of what a capture `n` is bound to. If that is a numeral,
however long and with whatever zeros in front, the numeral of the next number is put in, without
zeros in front (`Context.applyRule_successor`). This holds for numbers below `2 ^ 64 - 1` only. No
successor is bound for greater ones, and the reference to it is then looked up in the context, or
left open.
-/

namespace TermRegistry

namespace Context

variable {ctx : Context} {b extra : Binding} {n s : String} {v : Nat}

/-- What the successor of a name that is bound to a numeral is filled with. -/
theorem filling_successorName (ctx : Context) (hn : n ≠ "") (hs : b.get? n = some (.text s))
    (hv : Text.decimal? s = some v) (hfree : b.get? (Binding.successorName n) = none)
    (hextra : extra.get? (Binding.successorName n) = none) :
    ctx.filling b extra (Binding.successorName n) =
      if v + 1 < Text.countLimit then some (.text (v + 1).repr)
      else ctx.given (Binding.successorName n) := by
  have hlimit : v < 2 ^ 64 - 1 ↔ v + 1 < Text.countLimit := by
    rw [show Text.countLimit = 2 ^ 64 from rfl]
    omega
  have hwhole : n ≠ Binding.wholeName := hn
  have hnext : Binding.successor? (fun m ↦ (b.get? m).or (extra.get? m))
      (Binding.successorName n) =
        if v + 1 < Text.countLimit then some (.text (v + 1).repr) else none := by
    rw [Binding.successor?, Binding.base?_eq_some.2 rfl, Option.bind_some, if_neg hwhole, hs,
      Option.some_or, Option.bind_some, Term.increment?, Term.text?, Option.bind_some, hv,
      Option.bind_some]
    simp only [hlimit]
  rw [filling, hfree, hextra, hnext, Option.none_or, Option.none_or, given, Option.map_or]
  split <;> rfl

/-- **The successor of a numeral is put in.** Take a rule that can be written, a capture `n` of its
source that a match has bound to a numeral, and a target whose blanks are all references to the
successor of `n`, to which name nothing is bound. If the successor takes no more than 64 bits, the
result is the target with its numeral in all these places. If it takes more, they are filled with
the context's text or array of that name, or the result is an error if there is none. -/
theorem applyRule_successor (ctx : Context) (rules : RuleSet) (name : String) (r : Rule)
    (hr : rules.get? name = some r) (hwritten : r.toTerm.isWellFormed = true) (source : Term)
    (extra b : Binding) (hb : r.source.matching ctx.storage source = .ok (some b))
    (hn : n ∈ r.source.captures) (hs : b.get? n = some (.text s)) (hv : Text.decimal? s = some v)
    (htarget : ∀ u ∈ r.target.blanks, u = .reference (Binding.successorName n))
    (hmention : .reference (Binding.successorName n) ∈ r.target.blanks)
    (hfree : b.get? (Binding.successorName n) = none)
    (hextra : extra.get? (Binding.successorName n) = none) :
    (v + 1 < Text.countLimit → (ctx.applyRule rules name source extra).result =
      .ok (some (r.target.replaceReferences fun _ ↦ .text (v + 1).repr))) ∧
    (Text.countLimit ≤ v + 1 → (ctx.applyRule rules name source extra).result =
      match ctx.given (Binding.successorName n) with
      | some u => .ok (some (r.target.replaceReferences fun _ ↦ u))
      | none => .error (.unresolved (Binding.successorName n))) := by
  -- The successor is the one blank of the target. So the result is what fills it, if anything does,
  -- and it fails because of it alone.
  obtain ⟨hsource, htargetWritten⟩ := Bool.and_eq_true_iff.1 hwritten
  have hresult : (ctx.applyRule rules name source extra).result =
      match ctx.filling b extra (Binding.successorName n) with
      | some u => .ok (some (r.target.replaceReferences fun _ ↦ u))
      | none => .error (.unresolved (Binding.successorName n)) := by
    rw [result_applyRule hr, apply_of_matching extra hb, Term.substitute_eq,
      Term.pruned_of_isWellFormed r.target htargetWritten]
    cases hu : ctx.filling b extra (Binding.successorName n) with
    | some u =>
      have hfault : r.target.fault? (ctx.filling b extra) = none := by
        refine List.findSome?_eq_none_iff.2 fun w hw ↦ ?_
        rw [htarget w hw, Term.blankFault?, hu]
        rfl
      have hfill : r.target.replaceReferences (Term.fill (ctx.filling b extra)) =
          r.target.replaceReferences fun _ ↦ u :=
        Term.replaceReferences_congr_blanks r.target fun m hm ↦ by
          cases htarget _ hm
          rw [Term.fill, hu, Option.getD_some]
      rw [hfault, hfill]
      rfl
    | none =>
      have hfault : r.target.fault? (ctx.filling b extra) =
          some (.unresolved (Binding.successorName n)) := by
        rw [Term.fault?]
        obtain ⟨w, ws, hws⟩ := List.exists_cons_of_ne_nil (List.ne_nil_of_mem hmention)
        rw [hws, List.findSome?_cons, htarget w (hws ▸ List.mem_cons_self), Term.blankFault?, hu]
        rfl
      rw [hfault]
      rfl
  rw [hresult, filling_successorName ctx (Term.ne_empty_of_mem_captures hsource hn) hs hv hfree
    hextra]
  refine ⟨fun hlt ↦ ?_, fun hle ↦ ?_⟩
  · rw [if_pos hlt]
  · rw [if_neg hle.not_gt]

/-- A numeral with zeros in front, and a carry. -/
theorem applyRule_successor_carry :
    let p (n : Term) : Term := .call "V" ⟨[⟨.named "n", [], n⟩], .parameters⟩ none
    let rules : RuleSet :=
      ⟨[("inc", ⟨p (.capture "n"), .array [p (.reference "n++"), .text "n"]⟩)], by decide⟩
    ((empty 0 {}).applyRule rules "inc" (p (.text "0099")) {}).result =
      .ok (some (.array [p (.text "100"), .text "n"])) := by
  intro p rules
  let b : Binding := ⟨[("n", .text "0099"), ("", p (.text "0099"))]⟩
  have htarget : ∀ u ∈ [Term.reference "n++"], u = .reference (Binding.successorName "n") := by
    decide
  have hvalue : Text.decimal? "0099" = some 99 := by decide +kernel
  exact (applyRule_successor (empty 0 {}) rules "inc" _ rfl (by decide) (p (.text "0099")) {} b rfl
    (by decide) rfl hvalue htarget (by decide) rfl rfl).1 (by decide)

/-- **Not every numeral has a successor.** The number that takes up 64 bits is matched and captured
like any other, but the reference to the next one is left open. -/
theorem not_applyRule_successor :
    let p (n : Term) : Term := .call "V" ⟨[⟨.named "n", [], n⟩], .parameters⟩ none
    let rules : RuleSet := ⟨[("inc", ⟨p (.capture "n"), p (.reference "n++")⟩)], by decide⟩
    let source := p (.text "18446744073709551615")
    (∃ b, (p (.capture "n")).matching (empty 0 {}).storage source = .ok (some b) ∧
        b.get? "n" = some (.text "18446744073709551615") ∧ b.get? "n++" = none) ∧
      Text.decimal? "18446744073709551615" = some 18446744073709551615 ∧
      ((empty 0 {}).applyRule rules "inc" source {}).result ≠
        .ok (some (p (.text (18446744073709551615 + 1 : Nat).repr))) ∧
      ((empty 0 {}).applyRule rules "inc" source {}).result = .error (.unresolved "n++") := by
  intro p rules source
  have hresult :
      ((empty 0 {}).applyRule rules "inc" source {}).result = .error (.unresolved "n++") := by
    decide +kernel
  refine ⟨⟨_, rfl, rfl, rfl⟩, by decide +kernel, fun h ↦ ?_, hresult⟩
  rw [hresult] at h
  cases h

end Context

end TermRegistry
