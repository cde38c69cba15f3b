import TermRegistry.Context.Operations
import TermRegistry.Proofs.Families
import TermRegistry.Proofs.RoundTrip

/-!
# Bracketings of a chain of functions

A chain of functions can be composed in many ways: read off a text without parentheses it is nested
to the right, and parentheses give any other shape. Where the composition belongs does not depend on
the shape, only on where the functions of the chain belong, from left to right
(`Context.inferFamily_bracketing`). These have to be functions on token spans, or functions on
strings, or a function from token spans to strings after functions on token spans and before
functions on strings. A composition applies its second operand first, so that the latter stand in
front.

**Design.** The words of function namespaces that are chains are listed by `Chained`, and `compose`
comes in once: a chain of two parts is one just when its parts are, and they compose
(`chained_append`).
-/

namespace TermRegistry

/-! ### Chains -/

/-- **The words of function namespaces that compose**, each with the namespace of what they are
composed to. -/
inductive Chained : List Namespace → Namespace → Prop
  | spans (n : Nat) : Chained (List.replicate (n + 1) .spanFn) .spanFn
  | strings (n : Nat) : Chained (List.replicate (n + 1) .strFn) .strFn
  | mixed (m n : Nat) :
      Chained (List.replicate m .strFn ++ .spanStrFn :: List.replicate n .spanFn) .spanStrFn

namespace Chained

variable {u v : List Namespace} {f g ns : Namespace}

theorem single (h : ns ∈ Namespace.functions) : Chained [ns] ns := by
  simp only [Namespace.functions, List.mem_cons, List.not_mem_nil, or_false] at h
  obtain rfl | rfl | rfl := h
  · exact spans 0
  · exact strings 0
  · exact mixed 0 0

theorem eq_of_single (h : Chained [f] ns) : f = ns := by
  generalize hw : [f] = w at h
  cases h with
  | spans n | strings n => exact (List.cons.inj hw).1
  | mixed m n =>
    obtain ⟨-, hf⟩ | ⟨u, -, hu⟩ := List.append_eq_cons_iff.1 hw.symm
    · exact (List.cons.inj hf).1.symm
    · exact absurd hu.symm (List.append_ne_nil_of_right_ne_nil u (List.cons_ne_nil _ _))

/-- Parts that are chains and compose are a chain together. -/
theorem append (hu : Chained u f) (hv : Chained v g) (h : f.compose g = some ns) :
    Chained (u ++ v) ns := by
  -- By the shapes of both chains. Only where a shape may stand in front of the other does `compose`
  -- give a namespace.
  cases hu with
  | spans m =>
    cases hv with
    | spans n =>
      cases h
      rw [List.replicate_append_replicate]
      exact spans (m + 1 + n)
    | strings n | mixed m n => cases h
  | strings m =>
    cases hv with
    | spans n => cases h
    | strings n =>
      cases h
      rw [List.replicate_append_replicate]
      exact strings (m + 1 + n)
    | mixed i n =>
      cases h
      rw [← List.append_assoc, List.replicate_append_replicate]
      exact mixed (m + 1 + i) n
  | mixed m i =>
    cases hv with
    | spans n =>
      cases h
      rw [List.append_assoc, List.cons_append, List.replicate_append_replicate]
      exact mixed m (i + (n + 1))
    | strings n | mixed j n => cases h

theorem spans_of_ne_nil {n : Nat} (h : List.replicate n Namespace.spanFn ≠ []) :
    Chained (List.replicate n .spanFn) .spanFn := by
  cases n with
  | zero => exact absurd rfl h
  | succ n => exact spans n

theorem strings_of_ne_nil {n : Nat} (h : List.replicate n Namespace.strFn ≠ []) :
    Chained (List.replicate n .strFn) .strFn := by
  cases n with
  | zero => exact absurd rfl h
  | succ n => exact strings n

/-- **A chain is cut anywhere** into chains that compose. -/
theorem exists_of_append (h : Chained (u ++ v) ns) (hu : u ≠ []) (hv : v ≠ []) :
    ∃ f g, Chained u f ∧ Chained v g ∧ f.compose g = some ns := by
  generalize hw : u ++ v = w at h
  cases h with
  | spans n =>
    obtain ⟨-, hu', hv'⟩ := List.append_eq_replicate_iff.1 hw
    rw [hu'] at hu ⊢
    rw [hv'] at hv ⊢
    exact ⟨_, _, spans_of_ne_nil hu, spans_of_ne_nil hv, rfl⟩
  | strings n =>
    obtain ⟨-, hu', hv'⟩ := List.append_eq_replicate_iff.1 hw
    rw [hu'] at hu ⊢
    rw [hv'] at hv ⊢
    exact ⟨_, _, strings_of_ne_nil hu, strings_of_ne_nil hv, rfl⟩
  | mixed m n =>
    -- The cut is left of the function from token spans to strings, or right of it.
    obtain ⟨x, hm, rfl⟩ | ⟨x, rfl, hx⟩ := List.append_eq_append_iff.1 hw
    · obtain ⟨-, hu', hx⟩ := List.append_eq_replicate_iff.1 hm.symm
      rw [hu'] at hu ⊢
      rw [hx]
      exact ⟨_, _, strings_of_ne_nil hu, mixed _ n, rfl⟩
    · obtain ⟨rfl, rfl⟩ | ⟨y, rfl, hn⟩ := List.cons_eq_append_iff.1 hx
      · rw [List.append_nil] at hu ⊢
        exact ⟨_, _, strings_of_ne_nil hu, mixed 0 n, rfl⟩
      · obtain ⟨-, hy, hv'⟩ := List.append_eq_replicate_iff.1 hn.symm
        rw [hv'] at hv ⊢
        rw [hy]
        exact ⟨_, _, mixed m _, spans_of_ne_nil hv, rfl⟩

end Chained

/-! ### Bracketings -/

/-- **A way to put a chain of functions together**: which of them are composed first. -/
inductive Bracketing
  | leaf (t : Term)
  | node (f g : Bracketing)

namespace Bracketing

/-- The composition that is put together. -/
def toTerm : Bracketing → Term
  | leaf t => t
  | node f g => .composite f.toTerm g.toTerm

/-- The chain, from left to right. -/
def leaves : Bracketing → List Term
  | leaf t => [t]
  | node f g => f.leaves ++ g.leaves

variable {b b' : Bracketing}

theorem leaves_ne_nil (b : Bracketing) : b.leaves ≠ [] := by
  induction b with
  | leaf t => exact List.cons_ne_nil t []
  | node f g ihf _ => exact List.append_ne_nil_of_left_ne_nil ihf g.leaves

/-- A single function is no chain of several. -/
theorem leaves_node_ne (f g : Bracketing) (t : Term) : (node f g).leaves ≠ [t] := by
  intro h
  have hf := List.length_pos_iff.2 f.leaves_ne_nil
  have hg := List.length_pos_iff.2 g.leaves_ne_nil
  have hlength := congrArg List.length h
  rw [leaves, List.length_append, List.length_singleton] at hlength
  omega

/-- **A chain is a function alone, or all of its bracketings are compositions.** -/
theorem toTerm_eq_or_isSome (h : b.leaves = b'.leaves) : b.toTerm = b'.toTerm ∨
    b.toTerm.composition?.isSome = true ∧ b'.toTerm.composition?.isSome = true := by
  cases b with
  | leaf t =>
    cases b' with
    | leaf t' => exact .inl (List.cons.inj h).1
    | node f g => exact absurd h.symm (leaves_node_ne f g t)
  | node f g =>
    cases b' with
    | leaf t => exact absurd h (leaves_node_ne f g t)
    | node f' g' => exact .inr ⟨rfl, rfl⟩

theorem isWellFormed_toTerm (h : ∀ t ∈ b.leaves, t.isWellFormed = true) :
    b.toTerm.isWellFormed = true := by
  induction b with
  | leaf t => exact h t List.mem_cons_self
  | node f g ihf ihg =>
    rw [toTerm, Term.isWellFormed_composite, ihf fun t ht ↦ h t (List.mem_append_left _ ht),
      ihg fun t ht ↦ h t (List.mem_append_right _ ht)]
    rfl

end Bracketing

/-! ### Inferring -/

theorem Namespace.mem_functions_of_compose {f g ns : Namespace} (h : f.compose g = some ns) :
    ns ∈ Namespace.functions := by
  rw [compose.eq_def] at h
  split at h <;> cases h <;> decide

theorem Factories.mem_functions_of_familyOf {f : Factories} {name : String} {ns : Namespace}
    (h : f.familyOf name = .ok ns) : ns ∈ Namespace.functions := by
  have hfilter (p : Namespace → Bool) (hp : Namespace.functions.filter p = [ns]) :
      ns ∈ Namespace.functions :=
    List.mem_of_mem_filter (hp ▸ List.mem_cons_self)
  rw [familyOf] at h
  split at h
  · next found hfound =>
    cases h
    split at hfound
    · exact hfilter _ hfound
    · exact hfilter _ hfound
  · cases h
  · cases h

namespace Context

variable {ctx : Context} {b b' : Bracketing} {ns : Namespace} {t : Term}

/-- **What is inferred is a function namespace.** -/
theorem mem_functions_of_inferFamily (h : ctx.inferFamily t = .ok ns) :
    ns ∈ Namespace.functions := by
  fun_induction ctx.inferFamily t generalizing ns with
  | case1 n found hfound =>
    cases h
    exact List.mem_of_find?_eq_some hfound
  | case2 | case6 => cases h
  | case3 n l₁ ms₁ f l₂ ms₂ g form internal hcomposite ihf ihg =>
    obtain ⟨fs, -, h⟩ := bind_eq_ok.1 h
    obtain ⟨gs, -, h⟩ := bind_eq_ok.1 h
    split at h
    · next hns =>
      cases h
      exact Namespace.mem_functions_of_compose hns
    · cases h
  | case4 | case5 => exact Factories.mem_functions_of_familyOf h

/-- **A composition belongs where its chain says.** -/
theorem inferFamily_toTerm : ctx.inferFamily b.toTerm = .ok ns ↔
    ∃ w, b.leaves.map ctx.inferFamily = w.map .ok ∧ Chained w ns := by
  induction b generalizing ns with
  | leaf t =>
    constructor
    · intro h
      exact ⟨[ns], congrArg (· :: []) h, .single (mem_functions_of_inferFamily h)⟩
    · rintro ⟨w, hw, hns⟩
      obtain ⟨f, rfl, hf⟩ := List.map_eq_singleton_iff.1 hw.symm
      rw [Bracketing.toTerm, ← hf, hns.eq_of_single]
  | node f g ihf ihg =>
    rw [Bracketing.toTerm, inferFamily_composition (Term.composition?_composite _ _)]
    constructor
    · rintro ⟨fs, gs, hfs, hgs, hns⟩
      obtain ⟨u, hu, hfs⟩ := ihf.1 hfs
      obtain ⟨v, hv, hgs⟩ := ihg.1 hgs
      exact ⟨u ++ v, by rw [Bracketing.leaves, List.map_append, hu, hv, List.map_append],
        hfs.append hgs hns⟩
    · rintro ⟨w, hw, hns⟩
      rw [Bracketing.leaves, List.map_append] at hw
      obtain ⟨u, v, rfl, hu, hv⟩ := List.map_eq_append_iff.1 hw.symm
      have hu' : u ≠ [] := by
        rintro rfl
        exact f.leaves_ne_nil (List.map_eq_nil_iff.1 hu.symm)
      have hv' : v ≠ [] := by
        rintro rfl
        exact g.leaves_ne_nil (List.map_eq_nil_iff.1 hv.symm)
      -- Both sides have leaves, so the chain is split into two chains that are not empty.
      obtain ⟨fs, gs, hfs, hgs, hns⟩ := hns.exists_of_append hu' hv'
      exact ⟨fs, gs, ihf.2 ⟨u, hu.symm, hfs⟩, ihg.2 ⟨v, hv.symm, hgs⟩, hns⟩

/-- A composition is let through in a function namespace just when it belongs there. -/
theorem checkFamily_composition (hns : ns.isFunction = true) (ht : t.composition?.isSome = true) :
    ctx.checkFamily ns t = .ok () ↔ ctx.inferFamily t = .ok ns := by
  refine ⟨fun h ↦ inferFamily_of_checkFamily h hns ht, fun h ↦ ?_⟩
  rw [checkFamily, hns, ht, h]
  show (if ns = ns then _ else _) = _
  rw [if_pos rfl]
  rfl

theorem inferFamily_congr_leaves (h : b.leaves = b'.leaves) :
    ctx.inferFamily b.toTerm = .ok ns ↔ ctx.inferFamily b'.toTerm = .ok ns := by
  rw [inferFamily_toTerm, inferFamily_toTerm, h]

/-- **Bracketings of one chain are let through in the same namespaces.** -/
theorem checkFamily_congr_leaves (h : b.leaves = b'.leaves) :
    ctx.checkFamily ns b.toTerm = .ok () ↔ ctx.checkFamily ns b'.toTerm = .ok () := by
  obtain heq | ⟨hb, hb'⟩ := Bracketing.toTerm_eq_or_isSome h
  · rw [heq]
  · cases hns : ns.isFunction with
    | false =>
      rw [checkFamily, checkFamily, hns]
      exact Iff.rfl
    | true =>
      rw [checkFamily_composition hns hb, checkFamily_composition hns hb',
        inferFamily_congr_leaves h]

/-- **Where functions belong does not depend on the bracketing.** A composition belongs somewhere
just when all functions of its chain do, and from left to right these are functions on token spans,
or functions on strings, or functions on strings in front of one from token spans to strings in
front of functions on token spans; and the last is where it then belongs. So bracketings of one
chain belong in the same namespace and are let through in the same namespaces. Each of them can be
written. -/
theorem inferFamily_bracketing (ctx : Context) :
    (∀ b : Bracketing, ∀ ns, ctx.inferFamily b.toTerm = .ok ns ↔
      ∃ w, b.leaves.map ctx.inferFamily = w.map .ok ∧ Chained w ns) ∧
    (∀ b b' : Bracketing, b.leaves = b'.leaves →
      (∀ ns, ctx.inferFamily b.toTerm = .ok ns ↔ ctx.inferFamily b'.toTerm = .ok ns) ∧
      ∀ ns, ctx.checkFamily ns b.toTerm = .ok () ↔ ctx.checkFamily ns b'.toTerm = .ok ()) ∧
    ∀ b : Bracketing, (∀ t ∈ b.leaves, t.isWellFormed = true) →
      Term.parse b.toTerm.render = .ok b.toTerm :=
  ⟨fun _ _ ↦ inferFamily_toTerm,
    fun _ _ h ↦ ⟨fun _ ↦ inferFamily_congr_leaves h, fun _ ↦ checkFamily_congr_leaves h⟩,
    fun _ h ↦ Term.parse_render_eq_ok.2 (Bracketing.isWellFormed_toTerm h)⟩

/-- A function on strings after one from token spans to strings after one on token spans. -/
theorem inferFamily_bracketing_three :
    let leaf (name : String) : Bracketing := .leaf (.call name {} none)
    let left : Bracketing := .node (.node (leaf "S") (leaf "D")) (leaf "T")
    let right : Bracketing := .node (leaf "S") (.node (leaf "D") (leaf "T"))
    let ctx := empty 0 { registered :=
      [.permissive .strFn "S", .permissive .spanStrFn "D", .permissive .spanFn "T"] }
    ctx.inferFamily left.toTerm = .ok .spanStrFn ∧ ctx.inferFamily right.toTerm = .ok .spanStrFn ∧
      ctx.checkFamily .spanStrFn right.toTerm = .ok () ∧
      Term.parse left.toTerm.render = .ok left.toTerm := by
  intro leaf left right ctx
  obtain ⟨hfamily, hsame, hwritten⟩ := inferFamily_bracketing ctx
  have hleft : ctx.inferFamily left.toTerm = .ok .spanStrFn :=
    (hfamily left .spanStrFn).2 ⟨[.strFn, .spanStrFn, .spanFn], by decide +kernel, .mixed 1 1⟩
  have hcheck : ctx.checkFamily .spanStrFn left.toTerm = .ok () := by decide +kernel
  obtain ⟨hinfers, hchecks⟩ := hsame left right rfl
  exact ⟨hleft, (hinfers .spanStrFn).1 hleft, (hchecks .spanStrFn).1 hcheck,
    hwritten left (by decide)⟩

end Context

end TermRegistry
