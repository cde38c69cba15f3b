import TermRegistry.Proofs.Cloning
import TermRegistry.Proofs.Naming
import TermRegistry.Proofs.Naming.Tracing

/-!
# Names are minted once

A number that was minted is not minted again, in the context or in any context that is derived from
it: the counter that names are minted from only goes up, and a derived context goes on from it
(`Context.minted_once`). This includes names that were minted for definitions inside others, and for
constructions that failed.

`Lineage` is the history of a context: the operations on it, and on the context that it was derived
from, up to the empty one. It comes with the list of all names that were minted on the way, and with
the places that names were given to. A clone has two histories. It goes on from its source, whose
text gives a name to each of its entries; and it goes on from the empty context that this text was
loaded into, where names may have been minted once more for the definitions inside.
-/

namespace TermRegistry

namespace Context

variable {ctx made : Context} {ms ms' : List Minting} {ns : Namespace} {name : String}

/-! ### Operations -/

/-- **The names that a computation mints** when it is performed as a whole. -/
def Performs {α : Type} (ctx : Context) (b : Build α) (ms : List Minting) : Prop :=
  (Build.undoing b).Mints ⟨ctx, []⟩ ms

/-- The counter goes up along the names that a performed computation mints. -/
theorem Performs.rises {α : Type} {b : Build α} (h : ctx.Performs b ms) (hc : ctx.Coherent) :
    Rises ctx.counter ms (ctx.perform b).context.counter :=
  (Build.Mints.rises h hc.keyed).2

/-- A performed computation accounts for what it keeps. -/
theorem exists_performs {α : Type} {b : Build α} {given : Set (Namespace × String)}
    (h : b.Accounts given) (ctx : Context) :
    ∃ ms, ctx.Performs b ms ∧ Accounted given ms ctx (ctx.perform b).context :=
  h.undoing ⟨ctx, []⟩

/-- The names that a declaration mints. -/
inductive MintsDeclaring (ctx : Context) : Entry Term → List Minting → Prop
  | misplaced {s : Entry Term} {e : Error} (hns : declaredNamespace s = .error e) :
      MintsDeclaring ctx s []
  | construct {s : Entry Term} {ns : Namespace} {ms : List Minting}
      (hns : declaredNamespace s = .ok ns)
      (h : ctx.Performs (Build.construct ns s.name? s.value) ms) : MintsDeclaring ctx s ms

/-- The names that declarations mint, up to the first one that fails. -/
inductive MintsLoading : Context → List (Entry Term) → List Minting → Prop
  | nil (ctx : Context) : MintsLoading ctx [] []
  | failed {ctx : Context} {s : Entry Term} {ms : List Minting} {e : Error}
      (h : MintsDeclaring ctx s ms) (he : (ctx.declare s).result = .error e)
      (ss : List (Entry Term)) : MintsLoading ctx (s :: ss) ms
  | declared {ctx : Context} {s : Entry Term} {ss : List (Entry Term)} {ms ms' : List Minting}
      {k : Kept} (h : MintsDeclaring ctx s ms) (hk : (ctx.declare s).result = .ok k)
      (hss : MintsLoading (ctx.declare s).context ss ms') : MintsLoading ctx (s :: ss) (ms ++ ms')

/-- **The names that an operation mints**, in order, whether it succeeds or fails. -/
inductive Mints (ctx : Context) : Operation → List Minting → Prop
  | unread {text : String} {e : Error} (h : Listing.parseStatements text = .error e) :
      Mints ctx (.load text) []
  | load {text : String} {l : Listing Term} {ms : List Minting}
      (hl : Listing.parseStatements text = .ok l) (h : ctx.MintsLoading l.entries ms) :
      Mints ctx (.load text) ms
  | construct {ns : Namespace} {name? : Option String} {t : Term} {ms : List Minting}
      (h : ctx.Performs (Build.construct ns name? t) ms) : Mints ctx (.construct ns name? t) ms
  | getOrConstruct {ns : Namespace} {t : Term} {ms : List Minting}
      (h : ctx.Performs (Build.findOrBuild t ns) ms) : Mints ctx (.getOrConstruct ns t) ms
  | getMatch (ns : Namespace) (pattern : Term) : Mints ctx (.getMatch ns pattern) []

/-- The places that a statement gives a name to: its own, if it has a name. -/
def givenBy (s : Entry Term) : Set (Namespace × String) :=
  {x | declaredNamespace s = .ok x.1 ∧ s.name? = some x.2}

/-- **The places that an operation gives a name to.** -/
def Operation.given : Operation → Set (Namespace × String)
  | .load text => {x | ∃ l, Listing.parseStatements text = .ok l ∧ ∃ s ∈ l.entries, x ∈ givenBy s}
  | .construct ns name? _ => {x | x.1 = ns ∧ name? = some x.2}
  | .getOrConstruct _ _ | .getMatch _ _ => ∅

/-! ### What operations mint -/

/-- What a declaration mints rises from the counter before to the counter after. -/
theorem MintsDeclaring.rises {s : Entry Term} (h : ctx.MintsDeclaring s ms) (hc : ctx.Coherent) :
    Rises ctx.counter ms (ctx.declare s).context.counter := by
  cases h with
  | misplaced hns =>
    rw [declare, hns]
    exact .nil _
  | construct hns h =>
    rw [declare_eq hns]
    exact h.rises hc

/-- What declarations mint rises, up to the first one that fails. -/
theorem MintsLoading.rises {ss : List (Entry Term)} (h : ctx.MintsLoading ss ms)
    (hc : ctx.Coherent) : Rises ctx.counter ms (ctx.declareAll ss).context.counter := by
  induction h with
  | nil ctx => exact .nil _
  | failed h he ss =>
    rw [(declareAll_cons_error ss he).2]
    exact h.rises hc
  | @declared ctx s _ _ _ _ h hk _ ih =>
    obtain ⟨js, hgrows⟩ := declare_grows s hc
    rw [declareAll_cons_ok hk]
    exact (h.rises hc).append (ih (hgrows.coherent hc))

/-- **What an operation mints rises** from the counter before to the counter after. -/
theorem Mints.rises {op : Operation} (h : ctx.Mints op ms) (hc : ctx.Coherent) :
    Rises ctx.counter ms (ctx.after op).counter := by
  cases h with
  | unread h =>
    show Rises _ _ (ctx.load _).context.counter
    rw [(load_of_parse_error h).2]
    exact .nil _
  | load hl h =>
    show Rises _ _ (ctx.load _).context.counter
    rw [load_of_parse hl]
    exact h.rises hc
  | construct h => exact h.rises hc
  | getOrConstruct h => exact h.rises hc
  | getMatch => exact .nil _

/-- What a declaration keeps is accounted for by its own name and those that it mints. -/
theorem exists_mintsDeclaring (ctx : Context) (s : Entry Term) :
    ∃ ms, ctx.MintsDeclaring s ms ∧ Accounted (givenBy s) ms ctx (ctx.declare s).context := by
  cases hns : declaredNamespace s with
  | error e =>
    rw [declare, hns]
    exact ⟨[], .misplaced hns, .refl ctx⟩
  | ok ns =>
    obtain ⟨ms, hms, hkept⟩ := exists_performs (Build.accounts_construct ns s.name? s.value) ctx
    rw [declare_eq hns]
    refine ⟨ms, .construct hns hms, hkept.mono ?_⟩
    rintro x ⟨hx, hname⟩
    exact ⟨hx ▸ hns, hname⟩

/-- What declarations keep is accounted for by their names and those that they mint. -/
theorem exists_mintsLoading (ctx : Context) (ss : List (Entry Term)) :
    ∃ ms, ctx.MintsLoading ss ms ∧
      Accounted {x | ∃ s ∈ ss, x ∈ givenBy s} ms ctx (ctx.declareAll ss).context := by
  induction ss generalizing ctx with
  | nil => exact ⟨[], .nil ctx, .refl ctx⟩
  | cons s ss ih =>
    obtain ⟨ms, hms, hkept⟩ := exists_mintsDeclaring ctx s
    have hfirst : Accounted {x | ∃ s' ∈ s :: ss, x ∈ givenBy s'} ms ctx (ctx.declare s).context :=
      hkept.mono fun x hx ↦ ⟨s, List.mem_cons_self, hx⟩
    -- Those behind a declaration that fails are not reached.
    cases hs : (ctx.declare s).result with
    | error e =>
      rw [(declareAll_cons_error ss hs).2]
      exact ⟨ms, .failed hms hs ss, hfirst⟩
    | ok k =>
      obtain ⟨ms', hms', hkept'⟩ := ih (ctx.declare s).context
      rw [declareAll_cons_ok hs]
      refine ⟨ms ++ ms', .declared hms hs hms', hfirst.trans (hkept'.mono ?_)⟩
      rintro x ⟨s', hs', hx⟩
      exact ⟨s', List.mem_cons_of_mem s hs', hx⟩

/-- **What an operation keeps is accounted for** by the names that it mints and those it is
given. -/
theorem exists_mints (ctx : Context) (op : Operation) :
    ∃ ms, ctx.Mints op ms ∧ Accounted op.given ms ctx (ctx.after op) := by
  -- The names that are given are those of statements and that of a construction.
  cases op with
  | load text =>
    show ∃ ms, _ ∧ Accounted _ ms ctx (ctx.load text).context
    cases hl : Listing.parseStatements text with
    | error e =>
      rw [(load_of_parse_error hl).2]
      exact ⟨[], .unread hl, .refl ctx⟩
    | ok l =>
      obtain ⟨ms, hms, hkept⟩ := exists_mintsLoading ctx l.entries
      rw [load_of_parse hl]
      exact ⟨ms, .load hl hms, hkept.mono fun x hx ↦ ⟨l, hl, hx⟩⟩
  | construct ns name? t =>
    obtain ⟨ms, hms, hkept⟩ := exists_performs (Build.accounts_construct ns name? t) ctx
    exact ⟨ms, .construct hms, hkept⟩
  | getOrConstruct ns t =>
    obtain ⟨ms, hms, hkept⟩ := exists_performs (Build.accounts_findOrBuild t ns ∅) ctx
    exact ⟨ms, .getOrConstruct hms, hkept⟩
  | getMatch ns pattern => exact ⟨[], .getMatch ns pattern, .refl ctx⟩

/-! ### Derived contexts -/

theorem contains_empty (home : Nat) (factories : Factories) (ns : Namespace) (name : String) :
    (empty home factories).contains ns name = false :=
  Registry.find?_eq_none.1 (find?_empty home factories ns name)

/-- Sharing entries brings no names but theirs. -/
theorem contains_of_foldl_share {ks : List Kept}
    (h : (ks.foldl share ctx).contains ns name = true) :
    ctx.contains ns name = true ∨ (ns, name) ∈ ks.map Kept.place := by
  induction ks generalizing ctx with
  | nil => exact .inl h
  | cons k ks ih =>
    rw [List.map_cons, List.mem_cons]
    obtain h | hplace := ih h
    · exact (contains_of_share h).imp_right .inl
    · exact .inr (.inr hplace)

/-- The counterpart of an entry is kept at the place of the entry. -/
theorem contains_of_keepBinary {label : String} {k : Kept} {made' : Context}
    (hmade : made.keepBinary label k = .ok made') (h : made'.contains ns name = true) :
    made.contains ns name = true ∨ (ns, name) = k.place := by
  -- Whether it is built anew or shared, the counterpart takes the name of the entry.
  rw [keepBinary] at hmade
  split at hmade
  · cases hmade
  split at hmade
  · split at hmade
    · cases hmade
      exact contains_of_keep h
    · cases hmade
      exact contains_of_share h
  · cases hmade
    exact contains_of_keep h
  · cases hmade
    exact contains_of_share h

/-- Labelling entries brings no names but theirs. -/
theorem contains_of_foldlM_keepBinary {label : String} {ks : List Kept} {made' : Context}
    (hmade : ks.foldlM (·.keepBinary label) made = .ok made')
    (h : made'.contains ns name = true) :
    made.contains ns name = true ∨ (ns, name) ∈ ks.map Kept.place := by
  induction ks generalizing made with
  | nil =>
    cases hmade
    exact .inl h
  | cons k ks ih =>
    rw [List.foldlM_cons] at hmade
    obtain ⟨made₁, hmade₁, hmade⟩ := bind_eq_ok.1 hmade
    rw [List.map_cons, List.mem_cons]
    obtain h | hplace := ih hmade
    · exact (contains_of_keepBinary hmade₁ h).imp_right .inl
    · exact .inr (.inr hplace)

/-- Places of entries are those of names that are there. -/
theorem contains_of_mem_places {ks : List Kept} (hks : ∀ k ∈ ks, ctx.find? k.ns k.name = some k)
    (h : (ns, name) ∈ ks.map Kept.place) : ctx.contains ns name = true := by
  obtain ⟨k, hk, heq⟩ := List.mem_map.1 h
  cases heq
  exact contains_eq_true.2 ⟨k, hks k hk⟩

/-- **The context of a binary labelling** has no name that its source does not have, and goes on
from the same counter. -/
theorem contains_of_binary {label : String} {home : Nat}
    (hmade : (ctx.binary label home).result = .ok made) :
    made.counter = ctx.counter ∧
      ∀ ns name, made.contains ns name = true → ctx.contains ns name = true := by
  rw [binary, Reported.result_of] at hmade
  obtain ⟨filled, hfilled, hmade⟩ := bind_eq_ok.1 hmade
  cases hmade
  refine ⟨rfl, fun ns name h ↦ ?_⟩
  obtain hempty | hplace := contains_of_foldlM_keepBinary hfilled h
  · rw [sibling, contains_empty] at hempty
    cases hempty
  · exact contains_of_mem_places (fun _ ↦ find?_of_mem_entries) hplace

/-- **The features alone** have no name that the context does not have, and go on from the same
counter. -/
theorem contains_of_onlyFeatures {home : Nat}
    (h : (ctx.onlyFeatures home).contains ns name = true) : ctx.contains ns name = true := by
  obtain hempty | hplace := contains_of_foldl_share h
  · rw [sibling, contains_empty] at hempty
    cases hempty
  · exact contains_of_mem_places (fun _ hk ↦ (find?_of_mem_inNamespace hk).2) hplace

/-- **A clone** has the names that loading the text of its source declares, and goes on from the
greater one of two counters. -/
theorem eq_of_clone {home : Nat} (hmade : (ctx.clone home).result = .ok made) :
    made = ((ctx.sibling home).after (.load ctx.render)).withCounter
      (max ((ctx.sibling home).after (.load ctx.render)).counter ctx.counter) := by
  obtain ⟨⟨⟩, -, rfl⟩ := map_eq_ok.1 hmade
  rfl

/-- A clone goes on from a counter that is not below that of its source, nor below that of the
load. -/
theorem counter_le_of_clone {home : Nat} (hmade : (ctx.clone home).result = .ok made) :
    ctx.counter ≤ made.counter ∧
      ((ctx.sibling home).after (.load ctx.render)).counter ≤ made.counter := by
  rw [eq_of_clone hmade]
  exact ⟨Nat.le_max_right _ _, Nat.le_max_left _ _⟩

/-! ### Histories -/

/-- **The history of a context**: the places that names were given to, and the names that were
minted, in order. -/
inductive Lineage : Context → Set (Namespace × String) → List Minting → Prop
  | empty (home : Nat) (factories : Factories) : Lineage (.empty home factories) ∅ []
  | after {ctx : Context} {given : Set (Namespace × String)} {op : Operation}
      {ms ms' : List Minting} (h : Lineage ctx given ms) (hop : ctx.Mints op ms') :
      Lineage (ctx.after op) (given ∪ op.given) (ms ++ ms')
  /-- A clone goes on from its source, whose text gives a name to each entry. -/
  | clone {ctx made : Context} {given : Set (Namespace × String)} {ms : List Minting}
      (h : Lineage ctx given ms) (home : Nat) (hmade : (ctx.clone home).result = .ok made) :
      Lineage made (Operation.load ctx.render).given ms
  /-- A clone goes on from the context that the text of its source was loaded into. -/
  | loaded {ctx made : Context} {given : Set (Namespace × String)} {ms : List Minting} {home : Nat}
      (hctx : ctx.Reachable)
      (h : Lineage ((ctx.sibling home).after (.load ctx.render)) given ms)
      (hmade : (ctx.clone home).result = .ok made) : Lineage made given ms
  | binary {ctx made : Context} {given : Set (Namespace × String)} {ms : List Minting}
      (h : Lineage ctx given ms) (label : String) (home : Nat)
      (hmade : (ctx.binary label home).result = .ok made) : Lineage made given ms
  | onlyFeatures {ctx : Context} {given : Set (Namespace × String)} {ms : List Minting}
      (h : Lineage ctx given ms) (home : Nat) : Lineage (ctx.onlyFeatures home) given ms

/-- **Contexts with a history are the reachable ones.** -/
theorem reachable_iff_exists_lineage : ctx.Reachable ↔ ∃ given ms, ctx.Lineage given ms := by
  -- A step of the one is a step of the other; only an operation has mintings to be found for it.
  constructor
  · intro h
    induction h with
    | empty home factories => exact ⟨_, _, .empty home factories⟩
    | @after ctx _ op ih =>
      obtain ⟨given, ms, h⟩ := ih
      obtain ⟨ms', hop, -⟩ := exists_mints ctx op
      exact ⟨_, _, h.after hop⟩
    | clone _ home hm ih =>
      obtain ⟨given, ms, h⟩ := ih
      exact ⟨_, _, h.clone home hm⟩
    | binary _ label home hm ih =>
      obtain ⟨given, ms, h⟩ := ih
      exact ⟨_, _, h.binary label home hm⟩
    | onlyFeatures _ home ih =>
      obtain ⟨given, ms, h⟩ := ih
      exact ⟨_, _, h.onlyFeatures home⟩
  · rintro ⟨given, ms, h⟩
    induction h with
    | empty home factories => exact .empty home factories
    | after _ _ ih => exact ih.after _
    | clone _ home hmade ih => exact ih.clone home hmade
    | loaded hctx _ hmade _ => exact hctx.clone _ hmade
    | binary _ label home hmade ih => exact ih.binary label home hmade
    | onlyFeatures _ home ih => exact ih.onlyFeatures home

/-- **Along a history, mintings rise** and stay below the counter. -/
theorem Lineage.minted {given : Set (Namespace × String)} (h : ctx.Lineage given ms) :
    ms.Pairwise (fun m m' ↦ m.number < m'.number) ∧
      ∀ m ∈ ms, m.IsFresh ∧ m.number < ctx.counter := by
  induction h with
  | empty => exact ⟨.nil, nofun⟩
  | @after ctx given op ms ms' h hop ih =>
    obtain ⟨hincreasing, hms⟩ := ih
    have hrises := hop.rises (reachable_iff_exists_lineage.2 ⟨_, _, h⟩).coherent
    -- What was minted before lies below the counter, which the new numbers start from.
    refine ⟨List.pairwise_append.2 ⟨hincreasing, hrises.increasing, fun m hm m' hm' ↦ ?_⟩,
      fun m hm ↦ ?_⟩
    · exact Nat.lt_of_lt_of_le (hms m hm).2 (hrises.bounds hm').1
    · obtain hm | hm := List.mem_append.1 hm
      · exact ⟨(hms m hm).1, Nat.lt_of_lt_of_le (hms m hm).2 hrises.le⟩
      · exact ⟨hrises.isFresh hm, (hrises.bounds hm).2⟩
  | clone _ home hmade ih =>
    have hle := (counter_le_of_clone hmade).1
    exact ⟨ih.1, fun m hm ↦ ⟨(ih.2 m hm).1, Nat.lt_of_lt_of_le (ih.2 m hm).2 hle⟩⟩
  | loaded _ _ hmade ih =>
    have hle := (counter_le_of_clone hmade).2
    exact ⟨ih.1, fun m hm ↦ ⟨(ih.2 m hm).1, Nat.lt_of_lt_of_le (ih.2 m hm).2 hle⟩⟩
  | binary _ label home hmade ih =>
    rw [(contains_of_binary hmade).1]
    exact ih
  | onlyFeatures _ home ih => exact ih

/-- **Names that were not given are numbered**: they are numerals of numbers below the counter. -/
def Numbered (ctx : Context) (given : Set (Namespace × String)) : Prop :=
  ∀ ns name, ctx.contains ns name = true →
    (ns, name) ∈ given ∨ ∃ n < ctx.counter, name = n.repr

/-- **Names stay numbered after an operation**: it adds names that it is given, and numerals that it
mints, which lie below the new counter. -/
theorem Numbered.after {given : Set (Namespace × String)} (h : ctx.Numbered given)
    (hc : ctx.Coherent) (op : Operation) : (ctx.after op).Numbered (given ∪ op.given) := by
  obtain ⟨ms, hms, hkept⟩ := exists_mints ctx op
  have hrises := hms.rises hc
  intro ns name hname
  obtain hname | hgiven | hminted := hkept ns name hname
  · obtain hgiven | ⟨n, hn, rfl⟩ := h ns name hname
    · exact .inl (.inl hgiven)
    · exact .inr ⟨n, Nat.lt_of_lt_of_le hn hrises.le, rfl⟩
  · exact .inl (.inr hgiven)
  · obtain ⟨m, hm, heq⟩ := List.mem_map.1 hminted
    cases heq
    exact .inr ⟨m.number, (hrises.bounds hm).2, (hrises.isFresh hm).name_eq⟩

theorem numbered_empty (home : Nat) (factories : Factories) (given : Set (Namespace × String)) :
    (empty home factories).Numbered given := by
  intro ns name hname
  rw [contains_empty] at hname
  cases hname

/-- Names stay numbered in a context with no other names and no smaller counter. -/
theorem Numbered.of_contains {given : Set (Namespace × String)} (h : ctx.Numbered given)
    (hcounter : ctx.counter ≤ made.counter)
    (hmade : ∀ ns name, made.contains ns name = true → ctx.contains ns name = true) :
    made.Numbered given := by
  intro ns name hname
  obtain hgiven | ⟨n, hn, rfl⟩ := h ns name (hmade ns name hname)
  · exact .inl hgiven
  · exact .inr ⟨n, Nat.lt_of_lt_of_le hn hcounter, rfl⟩

/-- The names of a clone are those of the load, and its counter is not smaller. -/
theorem Numbered.clone {given : Set (Namespace × String)} {home : Nat}
    (h : ((ctx.sibling home).after (.load ctx.render)).Numbered given)
    (hmade : (ctx.clone home).result = .ok made) : made.Numbered given := by
  refine h.of_contains (counter_le_of_clone hmade).2 fun ns name hname ↦ ?_
  rw [eq_of_clone hmade] at hname
  exact hname

/-- **Along a history, names that were not given are numbered.** -/
theorem Lineage.numbered {given : Set (Namespace × String)} (h : ctx.Lineage given ms) :
    ctx.Numbered given := by
  induction h with
  | empty home factories => exact numbered_empty home factories ∅
  | after h _ ih => exact ih.after (reachable_iff_exists_lineage.2 ⟨_, _, h⟩).coherent _
  | @clone ctx _ _ _ _ home hmade _ =>
    -- The text is loaded into an empty context, and every name in it is given by a statement or
    -- minted.
    have hloaded := (numbered_empty home ctx.factories ∅).after
      (coherent_empty home ctx.factories) (.load ctx.render)
    rw [Set.empty_union] at hloaded
    exact Numbered.clone hloaded hmade
  | loaded _ _ hmade ih => exact ih.clone hmade
  | binary _ label home hmade ih =>
    obtain ⟨hcounter, hcontains⟩ := contains_of_binary hmade
    exact ih.of_contains (Nat.le_of_eq hcounter.symm) hcontains
  | onlyFeatures _ home ih =>
    exact ih.of_contains (Nat.le_refl _) fun ns name ↦ contains_of_onlyFeatures

/-! ### Names that are taken -/

/-- **Only a name that is given is refused** for being taken in a namespace. -/
theorem name_eq_of_construct (hc : ctx.Coherent) {name? : Option String} {t : Term}
    {ns' : Namespace}
    (h : (ctx.construct ns name? t).result = .error (.duplicateName ns'.tag name)) :
    name? = some name := by
  obtain hspares | ⟨n, hn, heq, -⟩ := error_of_construct hc h
  · exact absurd (hspares _ _ rfl) ns'.tag_ne_ruleType
  · obtain ⟨-, rfl⟩ := Error.duplicateName.inj heq
    exact hn

/-- What is looked for is not refused. -/
theorem getOrConstruct_ne_duplicateName (hc : ctx.Coherent) (ns ns' : Namespace) (t : Term)
    (name : String) :
    (ctx.getOrConstruct ns t).result ≠ .error (.duplicateName ns'.tag name) := by
  intro h
  rw [getOrConstruct, result_perform] at h
  exact absurd (Build.spares_findOrBuild t ns hc _ h _ _ rfl) ns'.tag_ne_ruleType

/-- **Names are minted once.** Every reachable context has a history. The names that were minted in
it are the numerals of numbers each of which is greater than those before it and less than the
counter, and each name was free where it was minted. Every name of an entry was given to it or is
the numeral of a number less than the counter. More exactly, the mintings of an operation take the
counter from where it was to where it is afterwards, and what the operation adds has a name that it
gives or one of these. Neither an operation nor the way to a derived context sets the counter back.
And a construction does not fail because a name is taken in a namespace, unless the name was
given. -/
theorem minted_once :
    (∀ ctx : Context, ctx.Reachable → ∃ given ms, ctx.Lineage given ms) ∧
    ∀ (ctx : Context) (given : Set (Namespace × String)) (ms : List Minting),
      ctx.Lineage given ms →
        ms.Pairwise (fun m m' ↦ m.number < m'.number) ∧
        (∀ m ∈ ms, m.name = m.number.repr ∧ m.number < ctx.counter ∧
          m.before.contains m.ns m.name = false) ∧
        (∀ ns name, ctx.contains ns name = true →
          (ns, name) ∈ given ∨ ∃ n < ctx.counter, name = n.repr) ∧
        (∀ op, ∃ ms', ctx.Mints op ms' ∧ Rises ctx.counter ms' (ctx.after op).counter ∧
          Accounted op.given ms' ctx (ctx.after op)) ∧
        (∀ op, ctx.counter ≤ (ctx.after op).counter) ∧
        (∀ home made, (ctx.clone home).result = .ok made → ctx.counter ≤ made.counter) ∧
        (∀ label home made, (ctx.binary label home).result = .ok made →
          made.counter = ctx.counter) ∧
        (∀ home, (ctx.onlyFeatures home).counter = ctx.counter) ∧
        (∀ ns name? t (ns' : Namespace) name,
          (ctx.construct ns name? t).result = .error (.duplicateName ns'.tag name) →
            name? = some name) ∧
        ∀ ns t (ns' : Namespace) name,
          (ctx.getOrConstruct ns t).result ≠ .error (.duplicateName ns'.tag name) := by
  refine ⟨fun ctx h ↦ reachable_iff_exists_lineage.1 h, fun ctx given ms h ↦ ?_⟩
  have hc : ctx.Coherent := (reachable_iff_exists_lineage.2 ⟨given, ms, h⟩).coherent
  obtain ⟨hincreasing, hms⟩ := h.minted
  -- The numbers come from the history; what operations and derived contexts do, from one step.
  refine ⟨hincreasing, fun m hm ↦ ?_, h.numbered, fun op ↦ ?_, fun op ↦ ?_, ?_, ?_, fun home ↦ rfl,
    fun ns name? t ns' name he ↦ name_eq_of_construct hc he,
    fun ns t ns' name ↦ getOrConstruct_ne_duplicateName hc ns ns' t name⟩
  · obtain ⟨hfresh, hlt⟩ := hms m hm
    exact ⟨hfresh.name_eq, hlt, hfresh.free⟩
  · obtain ⟨ms', hop, hkept⟩ := exists_mints ctx op
    exact ⟨ms', hop, hop.rises hc, hkept⟩
  · obtain ⟨ms', hop, -⟩ := exists_mints ctx op
    exact (hop.rises hc).le
  · exact fun home made hmade ↦ (counter_le_of_clone hmade).1
  · exact fun label home made hmade ↦ (contains_of_binary hmade).1

/-- A definition with another one inside fails after two names have been minted. What is built next,
in the context and in its clone, gets greater numbers. -/
theorem minted_once_failed :
    let call (es : List (Entry Term)) : Term := .call "G" ⟨es, .parameters⟩ none
    let failing : Operation := .construct .spanFn none
      (call [⟨.named "p", [], call []⟩, ⟨.named "q", [], .reference "x"⟩])
    let building : Operation := .construct .spanFn none (call [])
    let ctx := (Context.empty 0 ⟨[], [.spanFn]⟩).run [failing, building]
    ((Context.empty 0 ⟨[], [.spanFn]⟩).after failing).entries = [] ∧
      ctx.names .spanFn = ["2"] ∧
      (∃ given ms, ctx.Lineage given ms ∧ ms.Pairwise (fun m m' ↦ m.number < m'.number) ∧
        ∀ m ∈ ms, m.number < 3) ∧
      ∃ made, (ctx.clone 1).result = .ok made ∧ 3 ≤ made.counter ∧
        (made.after building).names .spanFn = ["2", "3"] := by
  intro call failing building ctx
  obtain ⟨hlineage, honce⟩ := minted_once
  obtain ⟨given, ms, h⟩ := hlineage ctx (.run (.empty 0 _) [failing, building])
  obtain ⟨hincreasing, hms, -, -, -, hclone, -⟩ := honce ctx given ms h
  have hcounter : ctx.counter = 3 := by decide +kernel
  -- A clone is computed from the text of its source, which has to be legible.
  have hauthored : ctx.Authored := by
    have hfactories : Factories.Legible ⟨[], [.spanFn]⟩ := fun _ hp ↦ absurd hp List.not_mem_nil
    exact .construct (.construct (.empty 0 hfactories) _ _ (Term.parse_render_eq_ok.2 (by decide)))
      _ _ (Term.parse_render_eq_ok.2 (by decide))
  have hmade : (ctx.clone 1).result.map (fun made ↦ (made.after building).names .spanFn) =
      .ok ["2", "3"] := by
    rw [hauthored.legible.clone_eq]
    decide +kernel
  obtain ⟨made, hmade, hnames⟩ := map_eq_ok.1 hmade
  refine ⟨by decide +kernel, by decide +kernel,
    ⟨given, ms, h, hincreasing, fun m hm ↦ hcounter ▸ (hms m hm).2.1⟩, made, hmade,
    hcounter ▸ hclone 1 made hmade, hnames⟩

end Context

end TermRegistry
