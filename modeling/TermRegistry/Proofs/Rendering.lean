import TermRegistry.Proofs.Relabelling

/-!
# The text of a context

Whatever a context has become by reading texts and by building entries from parsed terms, and
whatever was derived from it since, its text reads back as its declarations
(`Context.Descended.reads_back`). For the operations this is legibility; what is left are the
derived contexts. They hold terms of their source only: relinking a component changes what its
parameters resolved to and not what they were written as, so the term that it shows is the same.

The features of a context are legible even where functions that they link to are left out. So the
proof goes along the entries that are kept one by one, and not through the integrity of links.
-/

namespace TermRegistry

namespace Context

variable {ctx made made' : Context} {label : String} {k : Kept} {ks : List Kept}

/-! ### Keeping what can be written -/

namespace Legible

theorem empty (home : Nat) {factories : Factories} (h : factories.Legible) :
    (Context.empty home factories).Legible := by
  refine ⟨h, fun ns name k hk ↦ ?_⟩
  rw [find?_empty] at hk
  cases hk

theorem share (h : ctx.Legible) (hk : k.toTerm.isWellFormed = true) : (ctx.share k).Legible := by
  cases hfree : ctx.contains k.ns k.name with
  | true =>
    rw [Context.share, Registry.keep_of_taken hfree]
    exact h
  | false =>
    refine ⟨h.factories, fun ns name l hl ↦ ?_⟩
    have hfind : (ctx.share k).find? ns name = _ := Registry.find?_keep hfree ns name
    rw [hfind] at hl
    split at hl
    · cases hl
      exact hk
    · exact h.found ns name l hl

theorem foldl_share (h : ctx.Legible) (hks : ∀ k ∈ ks, k.toTerm.isWellFormed = true) :
    (ks.foldl Context.share ctx).Legible := by
  induction ks generalizing ctx with
  | nil => exact h
  | cons k ks ih =>
    obtain ⟨hk, hks⟩ := List.forall_mem_cons.1 hks
    exact ih (h.share hk) hks

/-- **The counterpart of an entry shows the same term**, whatever its links are replaced by. -/
theorem keepBinary (h : made.Legible) (hk : k.toTerm.isWellFormed = true)
    (hmade : made.keepBinary label k = .ok made') : made'.Legible := by
  rw [Context.keepBinary] at hmade
  split at hmade
  · cases hmade
  next htaken =>
  have hfree : made.contains k.ns k.name = false := Bool.eq_false_iff.2 htaken
  split at hmade
  · next c hcontent =>
    split at hmade
    · cases hmade
      refine h.keep hfree ?_
      have hterm : k.toTerm = c.toTerm := congrArg Content.toTerm hcontent
      rw [Content.toTerm, ← c.toTerm_binary made.place_of_linkOf label, ← hterm]
      exact hk
    · cases hmade
      exact h.share hk
  · next s hcontent =>
    cases hmade
    have hterm : k.toTerm = (Content.rules (s.binary label)).toTerm :=
      congrArg Content.toTerm hcontent
    exact h.keep hfree (hterm ▸ hk)
  · cases hmade
    exact h.share hk

theorem foldlM_keepBinary (h : made.Legible) (hks : ∀ k ∈ ks, k.toTerm.isWellFormed = true)
    (hmade : ks.foldlM (·.keepBinary label) made = .ok made') : made'.Legible := by
  induction ks generalizing made with
  | nil =>
    cases hmade
    exact h
  | cons k ks ih =>
    obtain ⟨hk, hks⟩ := List.forall_mem_cons.1 hks
    rw [List.foldlM_cons] at hmade
    obtain ⟨made₁, hmade₁, hmade⟩ := bind_eq_ok.1 hmade
    exact ih (h.keepBinary hk hmade₁) hks hmade

/-! ### Derived contexts -/

theorem clone (h : ctx.Legible) {home : Nat} (hmade : (ctx.clone home).result = .ok made) :
    made.Legible := by
  obtain ⟨⟨⟩, -, rfl⟩ := map_eq_ok.1 hmade
  have hload := (empty home h.factories).load (coherent_empty home ctx.factories) ctx.render
  exact hload.withCounter _

theorem binary (h : ctx.Legible) {home : Nat} (hmade : (ctx.binary label home).result = .ok made) :
    made.Legible := by
  rw [Context.binary, Reported.result_of] at hmade
  obtain ⟨filled, hfilled, hmade⟩ := bind_eq_ok.1 hmade
  cases hmade
  refine withCounter (foldlM_keepBinary (empty home h.factories) (fun k hk ↦ ?_) hfilled) _
  exact h.found _ _ k (find?_of_mem_entries hk)

theorem onlyFeatures (h : ctx.Legible) (home : Nat) : (ctx.onlyFeatures home).Legible := by
  refine withCounter (foldl_share (empty home h.factories) fun k hk ↦ ?_) _
  exact h.found _ _ k (find?_of_mem_inNamespace hk).2

end Legible

end Context

/-! ### Contexts that come from reading -/

/-- Factories whose declared parameters have nothing but parsed terms for defaults. -/
def Factories.DefaultsParsed (f : Factories) : Prop :=
  ∀ p ∈ f.registered, ∀ schema, p.blueprint.schema? = some schema → ∀ q ∈ schema, ∀ t,
    q.default? = some t → ∃ text, Term.parse text = .ok t

theorem Factories.DefaultsParsed.legible {f : Factories} (h : f.DefaultsParsed) : f.Legible := by
  refine fun p hp ↦ ⟨fun schema hschema ↦ List.all_eq_true.2 fun q hq ↦ ?_, nofun, nofun⟩
  rw [Parameter.isLegible, Option.all_eq_true]
  intro t ht
  obtain ⟨text, hparse⟩ := h p hp schema hschema q hq t ht
  exact Term.isWellFormed_of_parse hparse

/-- The composites take their operands without a default. -/
theorem Factories.defaultsParsed_standard (fallback : List Namespace) :
    DefaultsParsed ⟨standard.registered, fallback⟩ := by
  intro p hp schema hschema q hq t ht
  obtain ⟨ns, -, rfl⟩ := List.mem_map.1 hp
  obtain rfl := Option.some.inj hschema
  rcases List.mem_cons.1 hq with rfl | hq
  · cases ht
  · obtain rfl := List.mem_singleton.1 hq
    cases ht

namespace Context

/-- **Contexts that descend from reading**: from empty ones with parsed defaults, by loading texts
and by building entries from parsed terms, whether this succeeds or fails, and by deriving clones,
contexts of binary labellings and the features alone, at any time. -/
inductive Descended : Context → Prop
  | empty (home : Nat) {factories : Factories} (h : factories.DefaultsParsed) :
    Descended (.empty home factories)
  | load {ctx : Context} (h : Descended ctx) (text : String) : Descended (ctx.load text).context
  | construct {ctx : Context} (h : Descended ctx) (ns : Namespace) (name? : Option String)
    {text : String} {t : Term} (ht : Term.parse text = .ok t) :
    Descended (ctx.construct ns name? t).context
  | getOrConstruct {ctx : Context} (h : Descended ctx) (ns : Namespace) {text : String} {t : Term}
    (ht : Term.parse text = .ok t) : Descended (ctx.getOrConstruct ns t).context
  | clone {ctx made : Context} (h : Descended ctx) (home : Nat)
    (hmade : (ctx.clone home).result = .ok made) : Descended made
  | binary {ctx made : Context} (h : Descended ctx) (label : String) (home : Nat)
    (hmade : (ctx.binary label home).result = .ok made) : Descended made
  | onlyFeatures {ctx : Context} (h : Descended ctx) (home : Nat) :
    Descended (ctx.onlyFeatures home)

namespace Descended

variable {ctx : Context}

theorem reachable (h : ctx.Descended) : ctx.Reachable := by
  induction h with
  | empty home => exact .empty home _
  | load _ text ih => exact ih.after (.load text)
  | construct _ ns name? _ ih => exact ih.after (.construct ns name? _)
  | getOrConstruct _ ns _ ih => exact ih.after (.getOrConstruct ns _)
  | clone _ home hmade ih => exact ih.clone home hmade
  | binary _ label home hmade ih => exact ih.binary label home hmade
  | onlyFeatures _ home ih => exact ih.onlyFeatures home

theorem legible (h : ctx.Descended) : ctx.Legible := by
  induction h with
  | empty home h => exact .empty home h.legible
  | load h text ih => exact ih.load h.reachable.coherent text
  | construct h ns name? ht ih =>
    have ht := Term.isWellFormed_of_parse ht
    exact preserved_legible.construct h.reachable.coherent ih ns name? ht
  | getOrConstruct h ns ht ih =>
    have ht := Term.isWellFormed_of_parse ht
    exact preserved_legible.getOrConstruct h.reachable.coherent ih ns ht
  | clone _ _ hmade ih => exact ih.clone hmade
  | binary _ _ _ hmade ih => exact ih.binary hmade
  | onlyFeatures _ home ih => exact ih.onlyFeatures home

/-- **What a context prints can be read back.** The text of a context that descends from reading
parses to statements, one for each place in the order of declaration: it has the tag of the
namespace for its type, the name of the place for its name, no modifiers, and the term of the entry
that is found there for its value. -/
theorem reads_back (h : ctx.Descended) :
    ∃ es, Listing.parseStatements ctx.render = .ok ⟨es, .statements⟩ ∧
      List.Forall₂ (fun place e ↦ ∃ k, ctx.find? place.1 place.2 = some k ∧
        e = ⟨.typed place.1.tag place.2, [], k.toTerm⟩) ctx.order es := by
  refine ⟨_, h.legible.parse_render, ?_⟩
  rw [← h.reachable.coherent.map_place_entries, List.forall₂_map_left_iff,
    List.forall₂_map_right_iff, List.forall₂_same]
  exact fun k hk ↦ ⟨k, find?_of_mem_entries hk, rfl⟩

/-- A feature with a nested definition, under names that have to be quoted, and with an internal
listing, after it got a label. -/
theorem reads_back_binary :
    let nested : Term := .call "Fil\"ter;" ⟨[⟨.named "a b", [], .text "=\n"⟩], .parameters⟩ none
    let feature : Term := .call "F" ⟨[⟨.named "", [], nested⟩], .parameters⟩
      (some [⟨.typed "x" "o", ["m"], .array [.text ""]⟩])
    let ctx := ((Context.empty 0 ⟨Factories.standard.registered, [.feature, .strFn]⟩).construct
      .feature (some "${A}") feature).context
    ∃ made es, (ctx.binary "pos" 1).result = .ok made ∧
      made.order = [(.strFn, "0"), (.feature, "${A}")] ∧
      Listing.parseStatements made.render = .ok ⟨es, .statements⟩ ∧ es.length = 2 := by
  intro nested feature ctx
  have hfeature : feature.isWellFormed = true := by decide
  have h : ctx.Descended :=
    .construct (.empty 0 (Factories.defaultsParsed_standard _)) _ _
      (Term.parse_render_eq_ok.2 hfeature)
  have hbinary : (ctx.binary "pos" 1).result.map Context.order =
      .ok [(.strFn, "0"), (.feature, "${A}")] := by
    decide +kernel
  clear_value ctx
  obtain ⟨made, hmade, horder⟩ := map_eq_ok.1 hbinary
  obtain ⟨es, hparse, hes⟩ := (h.binary "pos" 1 hmade).reads_back
  exact ⟨made, es, hmade, horder, hparse, by rw [← hes.length_eq, horder]; rfl⟩

end Descended

end Context

end TermRegistry
