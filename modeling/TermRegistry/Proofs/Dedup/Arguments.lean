import TermRegistry.Proofs.Dedup
import TermRegistry.Proofs.Matching.Following

/-!
# References among the arguments of a definition

A definition may refer to an entry where it could have the entry's own definition. Which entry is
found for it does not depend on which of the two it does, as long as the reference stands for that
entry (`Context.getMatch_fill`).

Here lies a difference between building an entry and looking for one. What is built looks a
reference up in the namespace that the kind of the parameter names. What is matched goes by the
storage, which knows bare names only, and gives the first entry of the name in the order of
resolution. If the name is taken in a namespace that comes earlier in that order, then the reference
is matched as if it were to the entry there, and the definition that was meant is not recognised
(`Context.not_getMatch_fill`). This cannot happen for values, which come first.
-/

namespace TermRegistry

/-! ### Namespaces in which a bare name is looked up first -/

/-- The namespaces that come earlier in the order of resolution. -/
def Namespace.ahead (N : Namespace) : List Namespace := resolutionOrder.takeWhile (· ≠ N)

theorem Namespace.exists_order_eq (N : Namespace) :
    ∃ rest, resolutionOrder = N.ahead ++ N :: rest := by
  cases N <;> exact ⟨_, rfl⟩

/-! ### Definitions with an argument left open -/

/-- **A definition with one argument left open.** -/
structure Frame where
  name : String
  before : List (Entry Term) := []
  /-- The label of the argument that is left open. -/
  label : Label
  modifiers : List String := []
  after : List (Entry Term) := []
  form : Form := .parameters
  internal : Option (List (Entry Term)) := none

namespace Frame

/-- The definition with a term for the argument. -/
def fill (q : Frame) (t : Term) : Term :=
  .call q.name ⟨q.before ++ ⟨q.label, q.modifiers, t⟩ :: q.after, q.form⟩ q.internal

/-- The other arguments. -/
def others (q : Frame) : List Term := (q.before ++ q.after).map (·.value)

/-- The definition with its other arguments changed. -/
def mapOthers (f : Term → Term) (q : Frame) : Frame :=
  { q with
    before := q.before.map (Listing.mapEntry f)
    after := q.after.map (Listing.mapEntry f) }

variable {q : Frame} {t u v : Term} {n x : String} {s : Storage}

theorem fill_mapOthers (f : Term → Term) (q : Frame) (t : Term) :
    (q.mapOthers f).fill (f t) = .call q.name
      (Listing.mapValues f ⟨q.before ++ ⟨q.label, q.modifiers, t⟩ :: q.after, q.form⟩)
      q.internal := by
  rw [Listing.mapValues, List.map_append, List.map_cons]
  rfl

theorem mem_parts_fill : v ∈ (q.fill t).parts ↔ v = t ∨ v ∈ q.others := by
  show v ∈ (q.before ++ _ :: q.after).map (·.value) ↔ v = t ∨ v ∈ (q.before ++ q.after).map _
  rw [List.map_append, List.map_cons, List.map_append, List.mem_append, List.mem_cons,
    List.mem_append]
  exact or_left_comm

/-- What is met with the stored term for the argument is met with the reference to it. -/
theorem reaches_fill (hu : s.resolve x = some u) (h : Reaches s.resolve (q.fill u) n) :
    Reaches s.resolve (q.fill (.reference x)) n := by
  obtain ⟨y, hy, hyn⟩ := h
  rcases Term.mem_references_cases hy with hcall | ⟨v, hv, hy⟩
  · cases hcall
  · rcases mem_parts_fill.1 hv with hv | hv
    · rw [hv] at hy
      have hmet : Reaches s.resolve (.reference x) n :=
        (Reaches.of_mem (Term.mem_references_self x)).trans hu ⟨y, hy, hyn⟩
      exact hmet.part (mem_parts_fill.2 (.inl rfl))
    · exact Reaches.part (mem_parts_fill.2 (.inr hv)) ⟨y, hy, hyn⟩

/-- Captures stand apart from references also with the stored term for the argument. -/
theorem apart_fill (h : s.Apart (q.fill (.reference x))) (hu : s.resolve x = some u) :
    s.Apart (q.fill u) := by
  rintro n (hn | ⟨y, w, hy, hw, hn⟩) hmet
  · refine h n ?_ (reaches_fill hu hmet)
    rcases Term.mem_captures_cases hn with hcall | ⟨v, hv, hn⟩
    · cases hcall
    · rcases mem_parts_fill.1 hv with hv | hv
      · rw [hv] at hn
        have hx : Reaches s.resolve (.reference x) x := .of_mem (Term.mem_references_self x)
        exact .inr ⟨x, u, hx.part (mem_parts_fill.2 (.inl rfl)), hu, hn⟩
      · exact .inl (Term.mem_captures_of_part (mem_parts_fill.2 (.inr hv)) hn)
  · exact h n (.inr ⟨y, w, reaches_fill hu hy, hw, hn⟩) (reaches_fill hu hmet)

end Frame

namespace Context

variable {ctx : Context} {ns N : Namespace} {t t' u : Term} {k : Kept} {x : String} {q : Frame}

/-! ### What a context finds for definitions that are matched alike -/

/-- It only matters which entries are matched, and which errors there are. -/
theorem matched_cons (s : Storage) (t : Term) (k : Kept) (ks : List Kept) :
    matched s t (k :: ks) = ((t.matching s k.toTerm).map Option.isSome).bind fun m ↦
      (matched s t ks).map fun rest ↦ if m then k :: rest else rest := by
  rw [matched]
  cases t.matching s k.toTerm with
  | error e => rfl
  | ok m => cases matched s t ks <;> rfl

theorem matched_congr {s : Storage} {ks : List Kept}
    (h : ∀ k ∈ ks, (t.matching s k.toTerm).map Option.isSome =
      (t'.matching s k.toTerm).map Option.isSome) : matched s t ks = matched s t' ks := by
  induction ks with
  | nil => rfl
  | cons k ks ih =>
    rw [matched_cons, matched_cons, h k List.mem_cons_self,
      ih fun k hk ↦ h k (List.mem_cons_of_mem _ hk)]

/-- **The single entry is the same** for definitions that are matched alike with all entries, both
ways. -/
theorem singleMatch_eq_of_matching
    (h : ∀ k ∈ ctx.inNamespace ns, (t.matching ctx.storage k.toTerm).map Option.isSome =
      (t'.matching ctx.storage k.toTerm).map Option.isSome)
    (hback : ∀ k ∈ ctx.inNamespace ns, (k.toTerm.matching ctx.storage t).map Option.isSome =
      (k.toTerm.matching ctx.storage t').map Option.isSome) :
    ctx.singleMatch ns t = ctx.singleMatch ns t' := by
  have hsame := matched_congr h
  cases hfound : matched ctx.storage t' (ctx.inNamespace ns) with
  | error e =>
    rw [singleMatch, singleMatch, hsame, hfound]
    rfl
  | ok found =>
    refine singleMatch_congr (hsame.trans hfound) hfound fun k hk ↦ ?_
    rw [Term.matches_eq, Term.matches_eq, hback k (mem_of_matched hfound hk)]

/-! ### References and what they stand for -/

theorem definite_storage (hc : ctx.Coherent)
    (hall : ∀ k ∈ ctx.entries, k.toTerm.captures = [] ∧ k.toTerm.IsTidy) :
    ctx.storage.Definite := by
  have hstored {x : String} {u : Term} (hu : ctx.storage.resolve x = some u) :
      u.isConcrete = true ∧ u.captures = [] ∧ u.IsTidy := by
    obtain ⟨k, hk, rfl⟩ := exists_entry_of_resolve hc hu
    exact ⟨k.isConcrete_toTerm, hall k hk⟩
  exact ⟨fun _ _ hu ↦ (hstored hu).1, fun _ _ hu ↦ (hstored hu).2.1,
    fun _ _ hu ↦ (hstored hu).2.2⟩

/-- **A definition finds the entry that it finds with the terms in it that its arguments stand
for.** -/
theorem singleMatch_follow (hc : ctx.Coherent)
    (hall : ∀ k ∈ ctx.entries, k.toTerm.captures = [] ∧ k.toTerm.IsTidy) {name : String}
    {l : Listing Term} {internal : Option (List (Entry Term))}
    (hapart : ctx.storage.Apart (.call name l internal)) (ns : Namespace) :
    ctx.singleMatch ns (.call name l internal) =
      ctx.singleMatch ns (.call name (l.mapValues ctx.storage.follow) internal) := by
  have hs := definite_storage hc hall
  refine singleMatch_eq_of_matching (fun k _ ↦ ?_) fun k hk ↦ ?_
  · exact Term.matching_follow hs hapart k.reference?_toTerm
  · have hcaptures := (hall k (mem_entries_of_mem_inNamespace hc hk)).1
    exact Term.matching_follow_candidate hs hcaptures k.reference?_toTerm

/-- **A reference among the arguments is looked for like the term that is stored for it.** -/
theorem singleMatch_fill (hc : ctx.Coherent)
    (hall : ∀ k ∈ ctx.entries, k.toTerm.captures = [] ∧ k.toTerm.IsTidy)
    (hu : ctx.storage.resolve x = some u) (hapart : ctx.storage.Apart (q.fill (.reference x)))
    (ns : Namespace) :
    ctx.singleMatch ns (q.fill (.reference x)) = ctx.singleMatch ns (q.fill u) := by
  have hconcrete := (definite_storage hc hall).concrete x u hu
  -- With all arguments followed, there is no difference left.
  have hsame : Storage.follow ctx.storage (.reference x) = ctx.storage.follow u := by
    rw [Storage.follow_stored hu,
      Storage.follow_of_reference? (Term.reference?_of_isConcrete hconcrete)]
  have hfollow (t : Term) (ht : ctx.storage.Apart (q.fill t)) :
      ctx.singleMatch ns (q.fill t) =
        ctx.singleMatch ns ((q.mapOthers ctx.storage.follow).fill (ctx.storage.follow t)) := by
    rw [Frame.fill_mapOthers]
    exact singleMatch_follow hc hall ht ns
  rw [hfollow _ hapart, hfollow u (Frame.apart_fill hapart hu), hsame]

/-- **What a bare name stands for** is the entry in a namespace, if no namespace that comes earlier
in the order of resolution has the name. -/
theorem lookup?_of_ahead (hx : ctx.find? N x = some k)
    (hahead : ∀ M ∈ N.ahead, ctx.find? M x = none) : ctx.lookup? x = some k := by
  obtain ⟨rest, horder⟩ := N.exists_order_eq
  rw [lookup?, horder, List.findSome?_append, List.findSome?_eq_none_iff.2 hahead,
    List.findSome?_cons, hx]
  rfl

theorem exists_lookup? (hx : ctx.find? N x = some k) : ∃ j, ctx.lookup? x = some j := by
  obtain ⟨rest, horder⟩ := N.exists_order_eq
  have hmem : N ∈ Namespace.resolutionOrder := by
    rw [horder]
    exact List.mem_append_right _ List.mem_cons_self
  cases hnone : ctx.lookup? x with
  | some j => exact ⟨j, rfl⟩
  | none => cases hx.symm.trans (List.findSome?_eq_none_iff.1 hnone N hmem)

/-- **Which entry is found for a definition with a reference to an entry among its arguments.** In a
context whose terms have no captures and no name twice in a listing, it is the entry that is found
with the definition in the place of the reference which the bare name stands for. This is the
definition of the entry that was meant if no namespace that comes earlier in the order of resolution
has the name. No capture of the definition may have the name of a reference that is met in it. -/
theorem getMatch_fill (hctx : ctx.Reachable)
    (hall : ∀ k ∈ ctx.entries, k.toTerm.captures = [] ∧ k.toTerm.IsTidy)
    (hx : ctx.find? N x = some k) (q : Frame)
    (hapart : ctx.storage.Apart (q.fill (.reference x))) (ns : Namespace) :
    (∃ j, ctx.lookup? x = some j ∧
      ctx.getMatch ns (q.fill (.reference x)) = ctx.getMatch ns (q.fill j.toTerm)) ∧
    ((∀ M ∈ N.ahead, ctx.find? M x = none) →
      ctx.getMatch ns (q.fill (.reference x)) = ctx.getMatch ns (q.fill k.toTerm)) := by
  have hc : ctx.Coherent := hctx.coherent
  have hlookup {j : Kept} (hj : ctx.lookup? x = some j) :
      ctx.getMatch ns (q.fill (.reference x)) = ctx.getMatch ns (q.fill j.toTerm) := by
    have hu : ctx.storage.resolve x = some j.toTerm := by
      rw [storage_resolve hc, hj, Option.map_some]
    rw [getMatch, getMatch, singleMatch_fill hc hall hu hapart]
  refine ⟨?_, fun hahead ↦ hlookup (lookup?_of_ahead hx hahead)⟩
  obtain ⟨j, hj⟩ := exists_lookup? hx
  exact ⟨j, hj, hlookup hj⟩

/-- A feature with a function and a value as its arguments. -/
theorem getMatch_fill_function :
    let factories : Factories := ⟨[.ofSchema .feature "F"
      [{ name := "p", kind := .entry .spanFn }, { name := "w", kind := .text }]], [.spanFn]⟩
    let q : Frame :=
      { name := "F", label := .named "p", after := [⟨.named "w", [], .reference "y"⟩] }
    let ctx := (empty 0 factories).run
      [.construct .value (some "y") (.text "1"),
        .construct .spanFn (some "x") (.call "G" {} none),
        .construct .feature (some "A") (q.fill (.reference "x"))]
    ctx.order = [(.value, "y"), (.spanFn, "x"), (.feature, "A")] ∧
      ctx.getMatch .feature (q.fill (.reference "x")) =
        ctx.getMatch .feature (q.fill (.call "G" {} none)) ∧
      (ctx.getMatch .feature (q.fill (.call "G" {} none))).result.map (·.map Kept.name) =
        .ok (some "A") := by
  intro factories q ctx
  have horder : ctx.order = [(.value, "y"), (.spanFn, "x"), (.feature, "A")] := by decide +kernel
  have hctx : ctx.Reachable := (Reachable.empty 0 factories).run _
  have hall : ∀ k ∈ ctx.entries, k.toTerm.captures = [] ∧ k.toTerm.IsTidy := by decide +kernel
  have hx : (ctx.find? .spanFn "x").map Kept.toTerm = some (.call "G" {} none) := by
    decide +kernel
  have hahead : ∀ M ∈ Namespace.spanFn.ahead, ctx.find? M "x" = none := by decide +kernel
  obtain ⟨k, hk, hterm⟩ := Option.map_eq_some_iff.1 hx
  have hapart : ctx.storage.Apart (q.fill (.reference "x")) :=
    (definite_storage hctx.coherent hall).apart (by decide +kernel)
  have hfound : (ctx.getMatch .feature (q.fill (.call "G" {} none))).result.map
      (·.map Kept.name) = .ok (some "A") := by
    decide +kernel
  refine ⟨horder, ?_, hfound⟩
  rw [← hterm]
  exact (getMatch_fill hctx hall hk q hapart .feature).2 hahead

/-- **A value may come between a reference and the function that it is to.** The feature is found by
the definition that it was made from, and not by the one with the function in the place of the
reference, although the kind of the parameter names the namespace of the function. -/
theorem not_getMatch_fill :
    let factories : Factories :=
      ⟨[.ofSchema .feature "F" [{ name := "p", kind := .entry .spanFn }]], [.spanFn]⟩
    let q : Frame := { name := "F", label := .named "p" }
    let ctx := (empty 0 factories).run
      [.construct .value (some "x") (.text "1"),
        .construct .spanFn (some "x") (.call "G" {} none),
        .construct .feature (some "A") (q.fill (.reference "x"))]
    ctx.Reachable ∧ (∀ k ∈ ctx.entries, k.toTerm.captures = [] ∧ k.toTerm.IsTidy) ∧
      (ctx.find? .spanFn "x").map Kept.toTerm = some (.call "G" {} none) ∧
      (ctx.getMatch .feature (q.fill (.reference "x"))).result.map (·.map Kept.name) =
        .ok (some "A") ∧
      (ctx.getMatch .feature (q.fill (.call "G" {} none))).result.map (·.map Kept.name) =
        .ok none := by
  intro factories q ctx
  have hctx : ctx.Reachable := (Reachable.empty 0 factories).run _
  refine ⟨hctx, ?_⟩
  decide +kernel

end Context

end TermRegistry
