import TermRegistry.Context.Rules
import TermRegistry.Proofs.Matching.Correctness

/-!
# What the references of a target are filled with

When a rule matches, what the match binds is joined by the extra bindings and then by the successors
of the numerals among both, and what nothing binds is looked up in the context. `Context.filling` is
this order of precedence, in which the first hit counts. That the bindings come to the same
(`Context.filling_eq`) rests on one thing: no name is bound twice. The successors are read off all
pairs of a binding and not by looking names up, so a pair that is hidden behind another one of its
name would have a successor of its own.

A binding is used by looking names up only, so the order of its pairs plays no part
(`Binding.Distinct.get?_withSuccessors_of_perm`).
-/

namespace TermRegistry

namespace Binding

variable {b b' c : Binding} {name n : String} {t : Term}

/-! ### Bindings without repeated names -/

/-- **Distinct bindings** bind no name twice. -/
def Distinct (b : Binding) : Prop := (b.entries.map Prod.fst).Nodup

theorem distinct_empty : ({} : Binding).Distinct := List.nodup_nil

theorem get?_eq_none : b.get? name = none ↔ name ∉ b.entries.map Prod.fst := by
  rw [get?, List.lookup_eq_none_iff, List.mem_map]
  constructor
  · rintro h ⟨e, he, rfl⟩
    exact bne_iff_ne.1 (h e he) rfl
  · exact fun h e he ↦ bne_iff_ne.2 fun hname ↦ h ⟨e, he, hname.symm⟩

theorem Distinct.insert (hb : b.Distinct) (name : String) (t : Term) :
    (b.insert name t).Distinct := by
  rw [Binding.insert]
  split
  · have hnames : (replace b.entries name t).map Prod.fst = b.entries.map Prod.fst := by
      rw [replace, List.map_map]
      refine List.map_congr_left fun e _ ↦ ?_
      rw [Function.comp_apply]
      split
      · next h => exact h.symm
      · rfl
    rw [Distinct, hnames]
    exact hb
  · next h =>
    have hfree := get?_eq_none.1 (Option.not_isSome_iff_eq_none.1 h)
    rw [Distinct, List.map_append]
    exact List.nodup_append.2 ⟨hb, List.nodup_singleton name, fun m hm k hk ↦ by
      rw [List.mem_singleton.1 hk]
      rintro rfl
      exact hfree hm⟩

theorem Distinct.note (hb : b.Distinct) (name : String) (t : Term) : (b.note name t).Distinct := by
  rw [Binding.note]
  split
  · exact hb
  · exact hb.insert name t

theorem Distinct.bind? (hb : b.Distinct) (h : b.bind? name t = some b') : b'.Distinct := by
  rcases bind?_eq_some.1 h with ⟨-, rfl⟩ | ⟨-, rfl⟩
  · exact hb
  · exact hb.insert name t

theorem Distinct.union (hb : b.Distinct) (c : Binding) : (b.union c).Distinct := by
  obtain ⟨entries⟩ := c
  rw [Binding.union]
  induction entries generalizing b with
  | nil => exact hb
  | cons e es ih => exact ih (hb.note e.1 e.2)

/-- What is found does not depend on the order of the pairs. -/
theorem Distinct.get?_of_perm (hb : b.Distinct) (h : c.entries.Perm b.entries) (name : String) :
    c.get? name = b.get? name := by
  have hfound {b : Binding} (hb : b.Distinct) (t : Term) :
      b.get? name = some t ↔ (name, t) ∈ b.entries := by
    obtain ⟨entries⟩ := b
    rw [get?]
    induction entries with
    | nil => simp
    | cons e es ih =>
      obtain ⟨m, u⟩ := e
      obtain ⟨hm, hes⟩ := List.nodup_cons.1 hb
      have hrest := ih hes
      rw [List.lookup_cons, List.mem_cons]
      by_cases hname : name = m
      · subst hname
        have hnot : (name, t) ∉ es := fun ht ↦ hm (List.mem_map.2 ⟨_, ht, rfl⟩)
        simp [hnot, eq_comm]
      · simp [beq_false_of_ne hname, hname, hrest]
  have hc : c.Distinct := (h.map Prod.fst).nodup_iff.2 hb
  refine Option.ext fun t ↦ ?_
  rw [hfound hc, hfound hb, h.mem_iff]

/-- **A union is looked up** in its first binding and then in its second one. -/
theorem get?_union (b c : Binding) (name : String) :
    (b.union c).get? name = (b.get? name).or (c.get? name) := by
  obtain ⟨entries⟩ := c
  induction entries generalizing b with
  | nil => exact Option.or_none.symm
  | cons e es ih =>
    have hrest : (b.union ⟨e :: es⟩).get? name = ((b.note e.1 e.2).get? name).or (es.lookup name) :=
      ih (b.note e.1 e.2)
    rw [hrest, get?_note]
    show _ = (b.get? name).or ((e :: es).lookup name)
    rw [List.lookup_cons]
    by_cases hname : name = e.1
    · rw [if_pos hname, beq_iff_eq.2 hname, ← hname]
      cases b.get? name <;> rfl
    · rw [if_neg hname, beq_false_of_ne hname]

end Binding

/-! ### What a match binds -/

/-- **A match binds no name twice.** -/
theorem Matching.distinct_of_matchWithin {resolve : String → Option Term} {depth : Nat}
    {p c : Term} {b b' : Binding} (h : matchWithin resolve depth p c b = .ok b')
    (hb : b.Distinct) : b'.Distinct := by
  induction depth generalizing p c b b' with
  | zero => cases h
  | succ depth ih =>
    cases stepped_of_matchWithin h with
    | bound hbind => exact hb.bind? hbind
    | same name => exact hb.note name _
    | stored hu hstep => exact (ih hstep hb).note _ _
    | followed hp hu hstep => exact ih hstep hb
    | @parts _ _ ds _ _ hds hstep =>
      clear hds h
      induction ds generalizing b with
      | nil =>
        cases hstep
        exact hb
      | cons d ds ihds =>
        obtain ⟨b₁, hd, hrest⟩ := bind_eq_ok.1 hstep
        exact ihds (ih hd hb) hrest

/-- A match is a run that succeeds, with the whole candidate bound on top. -/
theorem Term.matching_eq_some {s : Storage} {p c : Term} {b : Binding} :
    p.matching s c = .ok (some b) ↔
      ∃ b₁, Matching.matchWithin s.resolve (Matching.depthBound s p c) p c {} = .ok b₁ ∧
        b = b₁.insert Binding.wholeName c := by
  rw [matching]
  cases Matching.matchWithin s.resolve (Matching.depthBound s p c) p c {} with
  | error e => cases e <;> simp
  | ok b₁ => simp [eq_comm]

theorem Term.distinct_of_matching {s : Storage} {p c : Term} {b : Binding}
    (h : p.matching s c = .ok (some b)) : b.Distinct := by
  obtain ⟨b₁, hrun, rfl⟩ := matching_eq_some.1 h
  exact (Matching.distinct_of_matchWithin hrun Binding.distinct_empty).insert _ _

/-! ### Successors -/

/-- The name in front of two plus signs. -/
def Binding.base? (name : String) : Option String :=
  match name.toList.reverse with
  | '+' :: '+' :: cs => some (String.ofList cs.reverse)
  | _ => none

/-- **The numeral of the next number**, for numerals of numbers below `2 ^ 64 - 1`. -/
def Term.increment? (t : Term) : Option Term :=
  (t.text?.bind Text.decimal?).bind fun v ↦
    if v < 2 ^ 64 - 1 then some (.text (v + 1).repr) else none

/-- Numbers have successors as long as these take no more than 64 bits. -/
theorem Text.successor?_eq (s : String) :
    successor? s =
      (decimal? s).bind fun v ↦ if v < 2 ^ 64 - 1 then some (v + 1).repr else none := by
  rw [successor?]
  cases decimal? s with
  | none => rfl
  | some v =>
    have hlimit : v + 1 < countLimit ↔ v < 2 ^ 64 - 1 := by
      rw [show countLimit = 2 ^ 64 from rfl]
      omega
    simp only [hlimit, Option.bind_some]

namespace Binding

variable {b c : Binding} {name n : String}

theorem base?_eq_some : base? name = some n ↔ name = successorName n := by
  rw [base?, successorName]
  constructor
  · intro h
    split at h
    · next cs hcs =>
      have hname : name.toList = cs.reverse ++ ['+', '+'] := by
        rw [← List.reverse_reverse name.toList, hcs]
        simp
      obtain rfl := Option.some.inj h
      rw [← String.toList_inj, hname, String.toList_append, String.toList_ofList]
      rfl
    · cases h
  · rintro rfl
    rw [String.toList_append, List.reverse_append]
    show some (String.ofList n.toList.reverse.reverse) = some n
    rw [List.reverse_reverse, String.ofList_toList]

/-- What the successor of a name is bound to, by what the name is bound to. -/
def successor? (get : String → Option Term) (name : String) : Option Term :=
  (base? name).bind fun n ↦ if n = wholeName then none else (get n).bind Term.increment?

/-- The pair that binds the successor of a pair. -/
def successorPair? (e : String × Term) : Option (String × Term) :=
  if e.1 = wholeName then none else e.2.increment?.map (successorName e.1, ·)

theorem successors_eq (b : Binding) : b.successors = ⟨b.entries.filterMap successorPair?⟩ := by
  have hpair (e : String × Term) : (if e.1 = wholeName then none
      else (e.2.text?.bind Text.successor?).map fun next ↦ (successorName e.1, Term.text next)) =
        successorPair? e := by
    rw [successorPair?, Term.increment?]
    split
    · rfl
    · cases e.2.text? with
      | none => rfl
      | some s =>
        rw [Option.bind_some, Option.bind_some, Text.successor?_eq]
        cases Text.decimal? s with
        | none => rfl
        | some v =>
          rw [Option.bind_some, Option.bind_some]
          split <;> rfl
  rw [successors]
  exact congrArg Binding.mk (List.filterMap_congr fun e _ ↦ hpair e)

/-- A pair binds no other name's successor. -/
theorem lookup_successorPair? {e : String × Term} {es : List (String × Term)}
    (h : name ≠ successorName e.1) :
    ((e :: es).filterMap successorPair?).lookup name =
      (es.filterMap successorPair?).lookup name := by
  rw [List.filterMap_cons]
  split
  · rfl
  · next d hd =>
    rw [successorPair?] at hd
    split at hd
    · cases hd
    · obtain ⟨t, -, rfl⟩ := Option.map_eq_some_iff.1 hd
      rw [List.lookup_cons, beq_false_of_ne h]

/-- **Successors are found** by what the names are bound to that they are successors of. -/
theorem Distinct.get?_successors (hb : b.Distinct) (name : String) :
    b.successors.get? name = successor? b.get? name := by
  obtain ⟨entries⟩ := b
  rw [successors_eq]
  induction entries with
  | nil => cases hbase : base? name <;> simp [successor?, hbase, get?]
  | cons e es ih =>
    obtain ⟨m, u⟩ := e
    obtain ⟨hm, hes⟩ := List.nodup_cons.1 hb
    have hrest := ih hes
    by_cases hname : name = successorName m
    · -- Behind the pair of `m` there is no other one, so no other successor of `m` either.
      have hbase : base? name = some m := base?_eq_some.2 hname
      rw [successor?, hbase, Option.bind_some] at hrest ⊢
      have hnone : (⟨es⟩ : Binding).get? m = none := get?_eq_none.2 hm
      have hself : (⟨(m, u) :: es⟩ : Binding).get? m = some u := List.lookup_cons_self
      rw [hnone, Option.bind_none, ite_self] at hrest
      rw [hself, Option.bind_some, get?, List.filterMap_cons, successorPair?]
      by_cases hwhole : m = wholeName
      · rw [if_pos hwhole, if_pos hwhole]
        exact hrest
      · rw [if_neg hwhole, if_neg hwhole]
        cases u.increment? with
        | none => exact hrest
        | some t =>
          rw [hname]
          exact List.lookup_cons_self
    · have hother (n : String) (hn : base? name = some n) :
          (⟨(m, u) :: es⟩ : Binding).get? n = (⟨es⟩ : Binding).get? n := by
        have hne : n ≠ m := fun h ↦ hname (h ▸ base?_eq_some.1 hn)
        show ((m, u) :: es).lookup n = es.lookup n
        rw [List.lookup_cons, beq_false_of_ne hne]
      rw [get?, lookup_successorPair? hname]
      refine hrest.trans ?_
      rw [successor?, successor?]
      cases hbase : base? name with
      | none => rfl
      | some n => rw [Option.bind_some, Option.bind_some, hother n hbase]

/-- **With its successors** a binding is looked up in itself first. -/
theorem Distinct.get?_withSuccessors (hb : b.Distinct) (name : String) :
    b.withSuccessors.get? name = (b.get? name).or (successor? b.get? name) := by
  rw [withSuccessors, get?_union, hb.get?_successors]

/-- The order of the pairs of a binding makes no difference to it with its successors. -/
theorem Distinct.get?_withSuccessors_of_perm (hb : b.Distinct) (h : c.entries.Perm b.entries) :
    c.withSuccessors.get? = b.withSuccessors.get? := by
  have hc : c.Distinct := (h.map Prod.fst).nodup_iff.2 hb
  have hget : c.get? = b.get? := funext (hb.get?_of_perm h)
  funext name
  rw [hc.get?_withSuccessors, hb.get?_withSuccessors, hget]

end Binding

/-! ### The order of precedence -/

/-- **What a reference of a target is filled with**: what the match binds to its name, what is bound
to it besides, the successor of what either of them binds, and the context's text or array of that
name. The first of these that there is counts. -/
def Context.filling (ctx : Context) (b extra : Binding) (name : String) : Option Term :=
  (b.get? name).or <| (extra.get? name).or <|
    (Binding.successor? (fun n ↦ (b.get? n).or (extra.get? n)) name).or <|
    ((ctx.find? .value name).map Kept.toTerm).or ((ctx.find? .array name).map Kept.toTerm)

/-- **Rules fill references by precedence.** -/
theorem Context.filling_eq (ctx : Context) {b : Binding} (hb : b.Distinct) (extra : Binding)
    (name : String) :
    ((b.union extra).withSuccessors.get? name).or (ctx.given name) = ctx.filling b extra name := by
  have hget : (b.union extra).get? = fun n ↦ (b.get? n).or (extra.get? n) :=
    funext (b.get?_union extra)
  rw [(hb.union extra).get?_withSuccessors, hget, filling, given, Option.map_or, Option.or_assoc,
    Option.or_assoc]

end TermRegistry
