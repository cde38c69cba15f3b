import TermRegistry.Context.Derived
import TermRegistry.Proofs.Operations

/-!
# Reachable contexts

A context is reached from an empty one by operations, whether they succeed or fail, and by deriving
it from a reached one as a clone, as the context of a binary labelling or as the features alone.
Whatever is reached is coherent, because every operation lets the context grow and every derived
context is put together by keeping objects in an empty one.

From growth alone it also follows that operations only append: the order is extended at its end, and
an entry that an operation has handed out is found under its name for good.
-/

namespace TermRegistry

namespace Context

variable {ctx : Context}

/-! ### Operations -/

/-- An operation on a context. -/
inductive Operation
  | load (text : String)
  | construct (ns : Namespace) (name? : Option String) (t : Term)
  | getOrConstruct (ns : Namespace) (t : Term)
  | getMatch (ns : Namespace) (pattern : Term)

/-- Whether an operation builds from nothing but terms of some sort. -/
def Operation.From (good : Term → Prop) : Operation → Prop
  | .load text => ∀ l, Listing.parseStatements text = .ok l → ∀ s ∈ l.entries, good s.value
  | .construct _ _ t | .getOrConstruct _ t => good t
  | .getMatch _ _ => True

/-- The context after an operation. -/
def after (ctx : Context) : Operation → Context
  | .load text => (ctx.load text).context
  | .construct ns name? t => (ctx.construct ns name? t).context
  | .getOrConstruct ns t => (ctx.getOrConstruct ns t).context
  | .getMatch _ _ => ctx

/-- The context after some operations. -/
def run (ctx : Context) (ops : List Operation) : Context := ops.foldl after ctx

/-- The entry that an operation hands out, if it does. -/
def handed? (ctx : Context) : Operation → Option Kept
  | .load _ => none
  | .construct ns name? t => (ctx.construct ns name? t).result.toOption
  | .getOrConstruct ns t => (ctx.getOrConstruct ns t).result.toOption
  | .getMatch ns pattern => ((ctx.getMatch ns pattern).result.toOption).join

/-- **Operations let a context grow.** -/
theorem after_grows (op : Operation) (hc : ctx.Coherent) : ∃ js, ctx.Grows js (ctx.after op) := by
  cases op with
  | load text => exact load_grows text hc
  | construct ns name? t => exact perform_grows (Build.meets_construct ns name? t) hc
  | getOrConstruct ns t => exact perform_grows (Build.meets_findOrBuild t ns) hc
  | getMatch ns pattern => exact ⟨[], .refl ctx⟩

/-- **Runs let a context grow.** -/
theorem run_grows (ops : List Operation) (hc : ctx.Coherent) :
    ∃ js, ctx.Grows js (ctx.run ops) := by
  induction ops generalizing ctx with
  | nil => exact ⟨[], .refl ctx⟩
  | cons op ops ih =>
    obtain ⟨js, hgrows⟩ := after_grows op hc
    obtain ⟨ks, hgrows'⟩ := ih (hgrows.coherent hc)
    exact ⟨js ++ ks, hgrows.trans hgrows'⟩

/-- What an operation hands out is there afterwards. -/
theorem find?_of_handed? {op : Operation} {k : Kept} (hc : ctx.Coherent)
    (h : ctx.handed? op = some k) : (ctx.after op).find? k.ns k.name = some k := by
  cases op with
  | load text => cases h
  | construct ns name? t =>
    have hk := toOption_eq_some.1 h
    exact (perform_ok (Build.meets_construct ns name? t) hc hk).find?_eq_of_new.2
  | getOrConstruct ns t =>
    have hk := toOption_eq_some.1 h
    exact (perform_ok (Build.meets_findOrBuild t ns) hc hk).find?_eq.2
  | getMatch ns pattern =>
    have hk := toOption_eq_some.1 (Option.join_eq_some_iff.1 h)
    rw [getMatch, Reported.result_of] at hk
    exact (find?_of_mem_inNamespace (mem_of_singleMatch hk)).2

/-! ### Invariants of runs -/

/-- **Conditions that construction preserves** as long as it starts from terms of some sort: they
hold on after the numbers to mint from have gone up, and after a course of construction for a new
entry or for a definition. -/
structure Preserved (good : Term → Prop) (P : Context → Prop) : Prop where
  raised : ∀ {ctx ctx' : Context}, P ctx → ctx.Raised ctx' → P ctx'
  new : ∀ {ctx ctx' : Context} {ns : Namespace} {name? : Option String} {t : Term} {k : Kept},
    ctx.Coherent → P ctx → good t → Builds ctx (.new ns name? t k) ctx' → P ctx'
  entry : ∀ {ctx ctx' : Context} {t : Term} {ns : Namespace} {k : Kept},
    ctx.Coherent → P ctx → good t → Builds ctx (.entry t ns k) ctx' → P ctx'

namespace Preserved

variable {good : Term → Prop} {P : Context → Prop}

/-- **A construction preserves the condition**: if it fails, then only the counter has gone up. -/
theorem construct (h : Preserved good P) (hc : ctx.Coherent) (hP : P ctx) (ns : Namespace)
    (name? : Option String) {t : Term} (ht : good t) : P (ctx.construct ns name? t).context := by
  cases hr : (ctx.construct ns name? t).result with
  | error e => exact h.raised hP (perform_error (Build.meets_construct ns name? t) hc hr)
  | ok k => exact h.new hc hP ht (perform_ok (Build.meets_construct ns name? t) hc hr)

/-- So does asking for a definition that may be constructed. -/
theorem getOrConstruct (h : Preserved good P) (hc : ctx.Coherent) (hP : P ctx) (ns : Namespace)
    {t : Term} (ht : good t) : P (ctx.getOrConstruct ns t).context := by
  cases hr : (ctx.getOrConstruct ns t).result with
  | error e => exact h.raised hP (perform_error (Build.meets_findOrBuild t ns) hc hr)
  | ok k => exact h.entry hc hP ht (perform_ok (Build.meets_findOrBuild t ns) hc hr)

/-- A declaration preserves the condition, also where there is no namespace for it. -/
theorem declare (h : Preserved good P) (hc : ctx.Coherent) (hP : P ctx) {s : Entry Term}
    (hs : good s.value) : P (ctx.declare s).context := by
  cases hns : declaredNamespace s with
  | error e =>
    rw [Context.declare, hns]
    exact hP
  | ok ns =>
    rw [declare_eq hns]
    exact h.construct hc hP ns s.name? hs

/-- Declarations preserve the condition, up to the first one that fails. -/
theorem declareAll (h : Preserved good P) (hc : ctx.Coherent) (hP : P ctx)
    {ss : List (Entry Term)} (hss : ∀ s ∈ ss, good s.value) :
    P (ctx.declareAll ss).context := by
  induction ss generalizing ctx with
  | nil => exact hP
  | cons s ss ih =>
    have hdeclare := h.declare hc hP (hss s List.mem_cons_self)
    cases hs : (ctx.declare s).result with
    | error e =>
      rw [(declareAll_cons_error ss hs).2]
      exact hdeclare
    | ok k =>
      obtain ⟨js, hgrows⟩ := declare_grows s hc
      rw [declareAll_cons_ok hs]
      exact ih (hgrows.coherent hc) hdeclare fun s hs ↦ hss s (List.mem_cons_of_mem _ hs)

/-- Loading a text preserves the condition, also if the text cannot be read. -/
theorem load (h : Preserved good P) (hc : ctx.Coherent) (hP : P ctx) {text : String}
    (htext : ∀ l, Listing.parseStatements text = .ok l → ∀ s ∈ l.entries, good s.value) :
    P (ctx.load text).context := by
  cases hparse : Listing.parseStatements text with
  | error e =>
    rw [(load_of_parse_error hparse).2]
    exact hP
  | ok l =>
    rw [load_of_parse hparse]
    exact h.declareAll hc hP (htext l hparse)

/-- Each operation preserves the condition. -/
theorem afterFrom (h : Preserved good P) (hc : ctx.Coherent) (hP : P ctx) {op : Operation}
    (hop : op.From good) : P (ctx.after op) := by
  cases op with
  | load text => exact h.load hc hP hop
  | construct ns name? t => exact h.construct hc hP ns name? hop
  | getOrConstruct ns t => exact h.getOrConstruct hc hP ns hop
  | getMatch ns pattern => exact hP

/-- **What construction from terms of some sort preserves, runs preserve** that build from such
terms alone, whether their operations succeed or fail. -/
theorem runFrom (h : Preserved good P) (hc : ctx.Coherent) (hP : P ctx) {ops : List Operation}
    (hops : ∀ op ∈ ops, op.From good) : P (ctx.run ops) := by
  induction ops generalizing ctx with
  | nil => exact hP
  | cons op ops ih =>
    obtain ⟨hop, hops⟩ := List.forall_mem_cons.1 hops
    obtain ⟨js, hgrows⟩ := after_grows op hc
    exact ih (hgrows.coherent hc) (h.afterFrom hc hP hop) hops

/-- What all construction preserves, all runs preserve. -/
theorem run (h : Preserved (fun _ ↦ True) P) (hc : ctx.Coherent) (hP : P ctx)
    (ops : List Operation) : P (ctx.run ops) := by
  refine h.runFrom hc hP fun op _ ↦ ?_
  cases op with
  | load text => exact fun _ _ _ _ ↦ trivial
  | _ => trivial

end Preserved

/-! ### Derived contexts -/

/-- The object that is found in a namespace suits it. -/
theorem Coherent.suits_of_find? (hc : ctx.Coherent) {ns : Namespace} {name : String} {k : Kept}
    (h : ctx.find? ns name = some k) : k.content.suits k.ns = true := by
  obtain ⟨live, hlive, rfl⟩ := Option.map_eq_some_iff.1 h
  obtain ⟨l₁, l₂, hl, -⟩ := List.lookup_eq_some_iff.1 hlive
  exact hc.suits ns (name, live) (hl ▸ List.mem_append_right l₁ List.mem_cons_self)

/-- The objects of all entries suit their namespaces. -/
theorem Coherent.suits_of_mem_entries (hc : ctx.Coherent) {k : Kept} (h : k ∈ ctx.entries) :
    k.content.suits k.ns = true :=
  hc.suits_of_find? (find?_of_mem_entries h)

/-- Sharing an object that suits its namespace preserves coherence. -/
theorem Coherent.share {k : Kept} (hc : ctx.Coherent) (hk : k.content.suits k.ns = true) :
    (ctx.share k).Coherent :=
  Registry.Coherent.keep hc hk

/-- An empty context is coherent. -/
theorem coherent_empty (home : Nat) (factories : Factories) : (empty home factories).Coherent :=
  Registry.coherent_empty

/-- Nothing is found in it. -/
theorem find?_empty (home : Nat) (factories : Factories) (ns : Namespace) (name : String) :
    (empty home factories).find? ns name = none :=
  Registry.find?_eq_none.2 ((coherent_empty home factories).contains_eq_false.2 List.not_mem_nil)

theorem Coherent.withCounter (hc : ctx.Coherent) (n : Nat) : (ctx.withCounter n).Coherent :=
  ⟨hc.order_nodup, hc.names_eq, hc.mem_names, hc.keys_nodup, hc.suits⟩

/-- The binary counterpart of an entry suits the namespace of the entry. -/
theorem Coherent.keepBinary {label : String} {k : Kept} {made made' : Context} (hm : made.Coherent)
    (hk : k.content.suits k.ns = true) (h : made.keepBinary label k = .ok made') :
    made'.Coherent := by
  rw [Context.keepBinary] at h
  -- What is kept is the object itself, its counterpart of the same sort, or its rules.
  split at h
  · cases h
  split at h
  · next c hcontent =>
    rw [hcontent] at hk
    split at h
    · cases h
      exact Registry.Coherent.keep hm hk
    · cases h
      exact hm.share (hcontent ▸ hk)
  · next s hcontent =>
    rw [hcontent] at hk
    cases h
    exact Registry.Coherent.keep hm hk
  · cases h
    exact hm.share hk

/-- Labelling objects that suit their namespaces preserves coherence. -/
theorem Coherent.foldlM_keepBinary {label : String} {ks : List Kept} {made made' : Context}
    (hm : made.Coherent) (hks : ∀ k ∈ ks, k.content.suits k.ns = true)
    (h : ks.foldlM (·.keepBinary label) made = .ok made') : made'.Coherent := by
  induction ks generalizing made with
  | nil =>
    cases h
    exact hm
  | cons k ks ih =>
    rw [List.foldlM_cons] at h
    obtain ⟨made₁, hmade₁, h⟩ := bind_eq_ok.1 h
    exact ih (hm.keepBinary (hks k List.mem_cons_self) hmade₁)
      (fun k hk ↦ hks k (List.mem_cons_of_mem _ hk)) h

/-- Sharing them does, too. -/
theorem Coherent.foldl_share {ks : List Kept} {made : Context} (hm : made.Coherent)
    (hks : ∀ k ∈ ks, k.content.suits k.ns = true) : (ks.foldl Context.share made).Coherent := by
  induction ks generalizing made with
  | nil => exact hm
  | cons k ks ih =>
    exact ih (hm.share (hks k List.mem_cons_self)) fun k hk ↦ hks k (List.mem_cons_of_mem _ hk)

/-- **A clone is coherent**, as it is loaded into an empty context. -/
theorem coherent_clone {home : Nat} {made : Context} (h : (ctx.clone home).result = .ok made) :
    made.Coherent := by
  obtain ⟨⟨⟩, -, rfl⟩ := map_eq_ok.1 h
  obtain ⟨js, hgrows⟩ := load_grows ctx.render (coherent_empty home ctx.factories)
  exact (hgrows.coherent (coherent_empty home ctx.factories)).withCounter _

/-- **The context of a binary labelling is coherent.** -/
theorem Coherent.binary (hc : ctx.Coherent) {label : String} {home : Nat} {made : Context}
    (h : (ctx.binary label home).result = .ok made) : made.Coherent := by
  rw [Context.binary, Reported.result_of] at h
  obtain ⟨made', hmade', h⟩ := bind_eq_ok.1 h
  cases h
  refine Coherent.withCounter (.foldlM_keepBinary (coherent_empty home ctx.factories) ?_ hmade') _
  exact fun k hk ↦ hc.suits_of_find? (find?_of_mem_entries hk)

/-- **The features alone are coherent.** -/
theorem Coherent.onlyFeatures (hc : ctx.Coherent) (home : Nat) :
    (ctx.onlyFeatures home).Coherent :=
  .withCounter (.foldl_share (coherent_empty home ctx.factories) fun _ hk ↦
    hc.suits_of_find? (find?_of_mem_inNamespace hk).2) _

/-! ### Reachability -/

/-- **Reachable contexts.** -/
inductive Reachable : Context → Prop
  | empty (home : Nat) (factories : Factories) : Reachable (.empty home factories)
  | after {ctx : Context} (h : Reachable ctx) (op : Operation) : Reachable (ctx.after op)
  | clone {ctx made : Context} (h : Reachable ctx) (home : Nat)
      (hm : (ctx.clone home).result = .ok made) : Reachable made
  | binary {ctx made : Context} (h : Reachable ctx) (label : String) (home : Nat)
      (hm : (ctx.binary label home).result = .ok made) : Reachable made
  | onlyFeatures {ctx : Context} (h : Reachable ctx) (home : Nat) :
      Reachable (ctx.onlyFeatures home)

/-- What is run from a reachable context leads to reachable contexts. -/
theorem Reachable.run (h : Reachable ctx) (ops : List Operation) : Reachable (ctx.run ops) := by
  induction ops generalizing ctx with
  | nil => exact h
  | cons op ops ih => exact ih (h.after op)

/-- **Whatever is reached is coherent.** -/
theorem Reachable.coherent (h : Reachable ctx) : ctx.Coherent := by
  induction h with
  | empty home factories => exact coherent_empty home factories
  | after _ op ih =>
    obtain ⟨js, hgrows⟩ := after_grows op ih
    exact hgrows.coherent ih
  | clone _ home hm _ => exact coherent_clone hm
  | binary _ label home hm ih => exact ih.binary hm
  | onlyFeatures _ home ih => exact ih.onlyFeatures home

/-- **The registry invariant over whole runs.** In a reachable context no place is declared twice,
the names of a namespace are its part of the order and the keys of its map, there are as many
entries as objects, and every object suits its namespace. Operations extend the order at its end;
what can be looked up is found for good, and so is what the operations hand out. -/
theorem Reachable.invariant (h : Reachable ctx) :
    ctx.order.Nodup ∧
    (∀ ns, (ctx.order.filter fun e ↦ e.1 = ns).map Prod.snd = ctx.names ns) ∧
    (∀ ns name, name ∈ ctx.names ns ↔
      name ∈ (ctx.registry.keeper ns).objects.map Prod.fst) ∧
    ctx.size = (Namespace.all.map fun ns ↦ (ctx.registry.keeper ns).size).sum ∧
    (∀ ns, ((ctx.registry.keeper ns).objects.map Prod.fst).Nodup ∧
      ∀ o ∈ (ctx.registry.keeper ns).objects, o.2.content.suits ns = true) ∧
    (∀ op, ctx.order <+: (ctx.after op).order) ∧
    (∀ ns name k, ctx.find? ns name = some k → ∀ ops, (ctx.run ops).find? ns name = some k) ∧
    (∀ op k, ctx.handed? op = some k →
      ∀ ops, ((ctx.after op).run ops).find? k.ns k.name = some k) := by
  have hc := h.coherent
  refine ⟨hc.order_nodup, hc.names_eq, hc.mem_names, hc.length_order,
    fun ns ↦ ⟨hc.keys_nodup ns, hc.suits ns⟩, fun op ↦ ?_, fun ns name k hk ops ↦ ?_,
    fun op k hk ops ↦ ?_⟩
  · -- Growth extends the order at its end and leaves what is found where it is.
    obtain ⟨js, hgrows⟩ := after_grows op hc
    exact ⟨js, hgrows.order_eq.symm⟩
  · obtain ⟨js, hgrows⟩ := run_grows ops hc
    exact hgrows.find?_eq hk
  · obtain ⟨js, hgrows⟩ := run_grows ops (h.after op).coherent
    exact hgrows.find?_eq (find?_of_handed? hc hk)

/-- A value that was declared after a failure is found by its text, and found for good. -/
theorem Reachable.invariant_value :
    let ctx := (Context.empty 0 {}).run
      [.construct .feature (some "f") (.text "t"), .construct .value (some "v") (.text "t")]
    let k : Kept := ⟨.value, "v", ⟨0, 0⟩, .text "t"⟩
    ctx.order = [(.value, "v")] ∧ ctx.order.Nodup ∧
      ctx.handed? (.getMatch .value (.text "t")) = some k ∧
        ∀ ops, (ctx.run ops).find? .value "v" = some k := by
  intro ctx k
  have h : ctx.Reachable := .run (.empty 0 {}) _
  have hk : ctx.handed? (.getMatch .value (.text "t")) = some k := by decide +kernel
  have horder : ctx.order = [(.value, "v")] := by decide +kernel
  clear_value ctx
  obtain ⟨hnodup, -, -, -, -, -, -, hhanded⟩ := h.invariant
  exact ⟨horder, hnodup, hk, hhanded _ k hk⟩

end Context

end TermRegistry
