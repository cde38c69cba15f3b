import TermRegistry.Proofs.Construction
import TermRegistry.Proofs.Naming.Minting

/-!
# The names that a construction mints

Not all names that are minted are to be seen when a construction is over. It may have failed, so
that the entries under them were forgotten; a prototype may have failed and another one succeeded;
or an entry was matched in the end that the name was not needed for. `Build.Mints` lists them all,
in order, each with the context that it was minted in.

Two things are shown of the list. The numbers in it rise from the counter before to the counter
after, without a gap other than the names that were taken, and each is free where it is minted
(`Build.Mints.rises`). And it accounts for all entries that are kept, but for the new one under the
name that is given to it (`Build.accounts_construct`).

**Design.** The first holds of any computation that is put together from the steps of constructions,
and is shown by induction on how it is put together. As such a step may keep anything, and undoing
may forget anything, only so much of coherence is carried along as minting needs, `Registry.Keyed`.
The second is shown along the functions of the construction, as it is a matter of where the names
go.
-/

namespace TermRegistry

/-! ### Names and keys -/

namespace Registry.Keyed

variable {r : Registry} {ns : Namespace} {name : String} {live : Live}

/-- Keeping an object keeps names and keys together: both are added, or neither is. -/
theorem keep (h : r.Keyed) : (r.keep ns name live).Keyed := by
  cases hfree : r.contains ns name with
  | true => rwa [keep_of_taken hfree]
  | false =>
    intro ns' n
    rw [contains, keeper_keep hfree]
    -- Only one namespace changes, and in it only the one name.
    by_cases hns : ns' = ns
    · subst hns
      rw [if_pos rfl, Keeper.contains, Keeper.get?_keep hfree, Keeper.keep_of_free hfree,
        List.mem_append, List.mem_singleton, h ns' n]
      by_cases hn : n = name
      · simp [hn]
      · rw [if_neg hn, or_iff_left hn]
        rfl
    · rw [if_neg hns]
      exact h ns' n

/-- So does forgetting one. -/
theorem forget (h : r.Keyed) : (r.forget ns name).Keyed := by
  intro ns' n
  rw [contains, keeper_forget]
  by_cases hns : ns' = ns
  · subst hns
    have hnames : n ∈ ((r.keeper ns').forget name).names ↔
        n ≠ name ∧ n ∈ (r.keeper ns').names := by
      rw [Keeper.forget]
      split
      · rw [List.mem_filter, bne_iff_ne, and_comm]
      · next hfree =>
        -- Where nothing is forgotten, the name was not among the names.
        refine ⟨fun hn ↦ ⟨fun heq ↦ hfree ?_, hn⟩, And.right⟩
        exact (h ns' name).1 (heq ▸ hn)
    rw [if_pos rfl, hnames, Keeper.contains, Keeper.get?_forget, h ns' n]
    by_cases hn : n = name
    · simp [hn]
    · rw [if_neg hn, and_iff_right hn]
      rfl
  · rw [if_neg hns]
    exact h ns' n

end Registry.Keyed

/-- What is there when an entry has been forgotten was there before. -/
theorem Context.contains_of_forget {ctx : Context} {ns ns' : Namespace} {name name' : String}
    (h : (ctx.forget ns' name').contains ns name = true) : ctx.contains ns name = true := by
  obtain ⟨k, hk⟩ := contains_eq_true.1 h
  have hfind : (ctx.forget ns' name').find? ns name = _ :=
    Registry.find?_forget ctx.registry ns' name' ns name
  rw [hfind] at hk
  split at hk
  · cases hk
  · exact contains_eq_true.2 ⟨k, hk⟩

namespace Progress

variable {p : Progress} {ns : Namespace} {name : String}

theorem keyed_undo (h : p.context.registry.Keyed) (mark : Nat) :
    (p.undo mark).context.registry.Keyed := by
  rw [undo]
  induction p.journal.drop mark with
  | nil => exact h
  | cons e es ih =>
    rw [List.foldr_cons]
    exact Registry.Keyed.forget ih

/-- What is there when a computation has been undone was there before. -/
theorem contains_of_undo {mark : Nat} (h : (p.undo mark).context.contains ns name = true) :
    p.context.contains ns name = true := by
  have hforget : ∀ es : List (Namespace × String),
      (es.foldr (fun e ctx ↦ ctx.forget e.1 e.2) p.context).contains ns name = true →
        p.context.contains ns name = true := by
    intro es
    induction es with
    | nil => exact id
    | cons e es ih => exact fun h ↦ ih (Context.contains_of_forget h)
  exact hforget _ h

end Progress

/-! ### Lists of names that were minted -/

/-- **A name that was minted** for a namespace, and the context that it was minted in. -/
structure Minting where
  before : Context
  ns : Namespace
  name : String

namespace Minting

/-- The number that was to be minted. -/
def number (m : Minting) : Nat := m.before.nextNumber m.ns

/-- The place that the name was minted for. -/
def place (m : Minting) : Namespace × String := (m.ns, m.name)

/-- **A name that was minted is the numeral of its number**, and was free. -/
structure IsFresh (m : Minting) : Prop where
  name_eq : m.name = m.number.repr
  free : m.before.contains m.ns m.name = false

end Minting

/-- **Mintings rise** from one counter to another: each goes on from where the one before has left
the counter, at its number and one more. -/
inductive Rises : Nat → List Minting → Nat → Prop
  | nil (n : Nat) : Rises n [] n
  | cons {m : Minting} {ms : List Minting} {n : Nat} (hm : m.IsFresh)
      (h : Rises (m.number + 1) ms n) : Rises m.before.counter (m :: ms) n

namespace Rises

variable {ms ms' : List Minting} {m : Minting} {c c' c'' : Nat}

/-- Mintings that rise one after the other rise together. -/
theorem append (h : Rises c ms c') (h' : Rises c' ms' c'') : Rises c (ms ++ ms') c'' := by
  induction h with
  | nil => exact h'
  | cons hm _ ih => exact .cons hm (ih h')

/-- **No minting sets the counter back.** -/
theorem le (h : Rises c ms c') : c ≤ c' := by
  induction h with
  | nil => exact Nat.le_refl _
  | @cons m _ _ _ _ ih =>
    have hnumber : m.before.counter ≤ m.number := m.before.registry.counter_le_nextNumber m.ns
    omega

/-- Numbers that were minted lie between the counters. -/
theorem bounds (h : Rises c ms c') (hm : m ∈ ms) : c ≤ m.number ∧ m.number < c' := by
  induction h with
  | nil => cases hm
  | @cons m' _ _ _ hrest ih =>
    have hnumber : m'.before.counter ≤ m'.number := m'.before.registry.counter_le_nextNumber m'.ns
    have hle := hrest.le
    obtain rfl | hm := List.mem_cons.1 hm
    · omega
    · have := ih hm
      omega

/-- **Each number is greater than those before it.** -/
theorem increasing (h : Rises c ms c') : ms.Pairwise fun m m' ↦ m.number < m'.number := by
  induction h with
  | nil => exact .nil
  | cons _ hrest ih => exact .cons (fun m' hm' ↦ (hrest.bounds hm').1) ih

/-- Each name that was minted was free where it was minted. -/
theorem isFresh (h : Rises c ms c') (hm : m ∈ ms) : m.IsFresh := by
  induction h with
  | nil => cases hm
  | cons hfresh _ ih =>
    obtain rfl | hm := List.mem_cons.1 hm
    · exact hfresh
    · exact ih hm

end Rises

/-! ### What computations mint -/

namespace Build

/-- **The names that a computation mints**, in order, by the way it is put together. -/
inductive Mints : {α : Type} → Build α → Progress → List Minting → Prop
  /-- Nothing is minted by what changes nothing. -/
  | reading {α : Type} {b : Build α} (h : ∀ p, (outcome b p).2 = p) (p : Progress) : Mints b p []
  | mint {p q : Progress} {ns : Namespace} {name : String}
      (h : outcome (Build.mint ns) p = (.ok name, q)) :
      Mints (Build.mint ns) p [⟨p.context, ns, name⟩]
  | keep (ns : Namespace) (name : String) (x : Content) (p : Progress) :
      Mints (Build.keep ns name x) p []
  | bindOk {α β : Type} {b : Build α} {f : α → Build β} {p q : Progress} {a : α}
      {ms ms' : List Minting} (h : outcome b p = (.ok a, q)) (hb : Mints b p ms)
      (hf : Mints (f a) q ms') : Mints (b >>= f) p (ms ++ ms')
  | bindError {α β : Type} {b : Build α} {f : α → Build β} {p q : Progress} {e : Error}
      {ms : List Minting} (h : outcome b p = (.error e, q)) (hb : Mints b p ms) :
      Mints (b >>= f) p ms
  /-- What is undone has been minted all the same. -/
  | undoing {α : Type} {b : Build α} {p : Progress} {ms : List Minting} (hb : Mints b p ms) :
      Mints (Build.undoing b) p ms
  | catchOk {α : Type} {b : Build α} {f : Error → Build α} {p q : Progress} {a : α}
      {ms : List Minting} (h : outcome b p = (.ok a, q)) (hb : Mints b p ms) :
      Mints (tryCatch b f) p ms
  | catchError {α : Type} {b : Build α} {f : Error → Build α} {p q : Progress} {e : Error}
      {ms ms' : List Minting} (h : outcome b p = (.error e, q)) (hb : Mints b p ms)
      (hf : Mints (f e) q ms') : Mints (tryCatch b f) p (ms ++ ms')

/-- **What is minted rises** from the counter before to the counter after. -/
theorem Mints.rises {α : Type} {b : Build α} {p : Progress} {ms : List Minting}
    (h : Mints b p ms) (hk : p.context.registry.Keyed) :
    (outcome b p).2.context.registry.Keyed ∧
      Rises p.context.counter ms (outcome b p).2.context.counter := by
  -- On the way in which the computation is put together. That the registry stays keyed goes along
  -- with it, since a number is free only in a registry whose names are its keys.
  induction h with
  | reading h p =>
    rw [h p]
    exact ⟨hk, .nil _⟩
  | @mint p _ ns _ h =>
    rw [outcome_mint] at h
    cases h
    have hfresh : Minting.IsFresh ⟨p.context, ns, (p.context.nextNumber ns).repr⟩ :=
      ⟨rfl, hk.nextNumber_free ns⟩
    exact ⟨hk, .cons hfresh (.nil _)⟩
  | keep ns name x p =>
    rw [outcome_keep]
    split
    · exact ⟨hk, .nil _⟩
    · refine ⟨Registry.Keyed.keep hk, ?_⟩
      rw [Context.counter_keep]
      exact .nil _
  | bindOk h _ _ ihb ihf =>
    have hb := ihb hk
    rw [outcome_bind_ok h]
    rw [h] at hb
    have hf := ihf hb.1
    exact ⟨hf.1, hb.2.append hf.2⟩
  | bindError h _ ih =>
    have hb := ih hk
    rw [outcome_bind, h]
    rwa [h] at hb
  | @undoing _ b p _ _ ih =>
    have hb := ih hk
    rw [outcome_undoing]
    split
    · next h => rwa [h] at hb
    · next h =>
      rw [h] at hb
      -- What was kept is taken back, and the counter is not.
      refine ⟨Progress.keyed_undo hb.1 _, ?_⟩
      rw [Progress.counter_undo]
      exact hb.2
  | catchOk h _ ih =>
    have hb := ih hk
    rw [outcome_tryCatch, h]
    rwa [h] at hb
  | catchError h _ _ ihb ihf =>
    have hb := ihb hk
    rw [outcome_tryCatch, h]
    rw [h] at hb
    have hf := ihf hb.1
    exact ⟨hf.1, hb.2.append hf.2⟩

end Build

/-! ### What is kept under names that were minted -/

namespace Context

/-- **What is new in a context is accounted for**: it is at one of some places that were given, or
at one that a name was minted for. -/
def Accounted (given : Set (Namespace × String)) (ms : List Minting) (ctx ctx' : Context) : Prop :=
  ∀ ns name, ctx'.contains ns name = true →
    ctx.contains ns name = true ∨ (ns, name) ∈ given ∨ (ns, name) ∈ ms.map Minting.place

namespace Accounted

variable {given : Set (Namespace × String)} {ms ms' : List Minting} {ctx ctx' ctx'' : Context}
  {ns : Namespace} {name : String}

/-- A context with no new names is accounted for by anything. -/
theorem of_contains (h : ∀ ns name, ctx'.contains ns name = true → ctx.contains ns name = true) :
    Accounted given ms ctx ctx' :=
  fun ns name hname ↦ .inl (h ns name hname)

/-- Nothing new is accounted for by anything. -/
theorem refl (ctx : Context) : Accounted given ms ctx ctx := of_contains fun _ _ ↦ id

/-- More places that are given account for all the more. -/
theorem mono {given' : Set (Namespace × String)} (h : Accounted given ms ctx ctx')
    (hgiven : given ⊆ given') : Accounted given' ms ctx ctx' :=
  fun ns name hname ↦ (h ns name hname).imp_right (Or.imp_left (hgiven ·))

/-- **What is new in two steps** is accounted for by what accounts for either. -/
theorem trans (h : Accounted given ms ctx ctx') (h' : Accounted given ms' ctx' ctx'') :
    Accounted given (ms ++ ms') ctx ctx'' := by
  intro ns name hname
  rw [List.map_append, List.mem_append]
  obtain hname | hgiven | hminted := h' ns name hname
  · obtain hname | hgiven | hminted := h ns name hname
    · exact .inl hname
    · exact .inr (.inl hgiven)
    · exact .inr (.inr (.inl hminted))
  · exact .inr (.inl hgiven)
  · exact .inr (.inr (.inr hminted))

/-- An object that is kept at a place that is given is accounted for. -/
theorem keep (h : (ns, name) ∈ given) (x : Content) :
    Accounted given ms ctx (ctx.keep ns name x).2 := by
  intro ns' n hn
  obtain hn | hplace := contains_of_keep hn
  · exact .inl hn
  · exact .inr (.inl (hplace ▸ h))

/-- A place that a name was minted for need not be given. -/
theorem of_insert {m : Minting} (h : Accounted (insert m.place given) ms ctx ctx') :
    Accounted given (m :: ms) ctx ctx' := by
  intro ns name hname
  rw [List.map_cons, List.mem_cons]
  obtain hname | heq | hgiven | hminted := (h ns name hname).imp_right (or_assoc.1 ·)
  · exact .inl hname
  · exact .inr (.inr (.inl heq))
  · exact .inr (.inl hgiven)
  · exact .inr (.inr (.inr hminted))

end Accounted

end Context

namespace Build

open Context (Accounted)

/-- **A computation accounts for what it keeps**, by the names that it mints and some places that
are given to it. -/
def Accounts {α : Type} (given : Set (Namespace × String)) (b : Build α) : Prop :=
  ∀ p, ∃ ms, Mints b p ms ∧ Accounted given ms p.context (outcome b p).2.context

namespace Accounts

variable {α β : Type} {b : Build α} {f : α → Build β} {given : Set (Namespace × String)}
  {ns : Namespace} {name : String}

/-- A computation that changes nothing accounts for what it keeps. -/
theorem reading (h : ∀ p, (outcome b p).2 = p) : Accounts given b := by
  intro p
  refine ⟨[], .reading h p, ?_⟩
  rw [h p]
  exact .refl _

theorem pure (a : α) : Accounts given (pure a : Build α) := reading fun _ ↦ rfl

theorem throw (e : Error) : Accounts given (throw e : Build α) := reading fun _ ↦ rfl

theorem liftM (r : Except Error α) : Accounts given (liftM r : Build α) :=
  reading fun p ↦ by rw [outcome_liftM]

theorem ask (g : Context → Except Error α) : Accounts given (ask g) :=
  reading fun p ↦ by rw [outcome_ask]

/-- Keeping an object at a given place is accounted for, taken or not. -/
theorem keep (h : (ns, name) ∈ given) (x : Content) : Accounts given (keep ns name x) := by
  intro p
  refine ⟨[], .keep ns name x p, ?_⟩
  rw [outcome_keep]
  split
  · exact .refl _
  · exact .keep h x

/-- **Accounting goes on**: two computations in sequence mint what either mints. -/
theorem bind (h : Accounts given b) (hf : ∀ a, Accounts given (f a)) :
    Accounts given (b >>= f) := by
  intro p
  obtain ⟨ms, hms, hb⟩ := h p
  rw [outcome_bind]
  cases ho : outcome b p with
  | mk r q =>
    rw [ho] at hb
    cases r with
    -- The second computation is not reached.
    | error e => exact ⟨ms, .bindError ho hms, hb⟩
    | ok a =>
      obtain ⟨ms', hms', ha⟩ := hf a q
      exact ⟨ms ++ ms', .bindOk ho hms hms', hb.trans ha⟩

/-- **Under a name that is minted something may be kept**, though its place is not given. -/
theorem bind_mint {f : String → Build β}
    (hf : ∀ name, Accounts (insert (ns, name) given) (f name)) :
    Accounts given (mint ns >>= f) := by
  intro p
  have ho := outcome_mint p ns
  obtain ⟨ms, hms, ha⟩ := hf (p.context.nextNumber ns).repr
    { p with context := p.context.withCounter (p.context.nextNumber ns + 1) }
  refine ⟨_, .bindOk ho (.mint ho) hms, ?_⟩
  rw [outcome_bind_ok ho]
  -- The place is given from here on, and in the end it is the place of the name that was minted.
  exact Accounted.of_insert (m := ⟨p.context, ns, (p.context.nextNumber ns).repr⟩) ha

/-- What is undone accounts for what it kept, since nothing of it stays. -/
theorem undoing (h : Accounts given b) : Accounts given (undoing b) := by
  intro p
  obtain ⟨ms, hms, hb⟩ := h p
  refine ⟨ms, .undoing hms, ?_⟩
  rw [outcome_undoing]
  split
  · next ho => rwa [ho] at hb
  · next ho =>
    rw [ho] at hb
    exact fun ns name hname ↦ hb ns name (Progress.contains_of_undo hname)

/-- What follows a failure goes on from what the failure has left. -/
theorem tryCatch {f : Error → Build α} (h : Accounts given b) (hf : ∀ e, Accounts given (f e)) :
    Accounts given (tryCatch b f) := by
  intro p
  obtain ⟨ms, hms, hb⟩ := h p
  rw [outcome_tryCatch]
  cases ho : outcome b p with
  | mk r q =>
    rw [ho] at hb
    cases r with
    | ok a => exact ⟨ms, .catchOk ho hms, hb⟩
    | error e =>
      obtain ⟨ms', hms', he⟩ := hf e q
      exact ⟨ms ++ ms', .catchError ho hms hms', hb.trans he⟩

end Accounts

/-! ### The functions of a construction -/

section

variable {given : Set (Namespace × String)} {t : Term} {ns : Namespace}

/-- What a parameter refers to is accounted for, whatever kind it has. -/
theorem accounts_resolve {find : Namespace → Build Kept} (h : ∀ ns, Accounts given (find ns))
    (kind : ParameterKind) : Accounts given (resolve find t kind) := by
  have hentry (ns : Namespace) : Accounts given (do return Resolved.entry (← find ns).link) :=
    (h ns).bind fun k ↦ .pure _
  cases kind with
  | text | array => exact (Accounts.ask _).bind fun a ↦ .pure _
  | entry ns => exact hentry ns
  | anyFunction => exact (Accounts.ask _).bind hentry
  | anything =>
    refine (Accounts.ask _).bind fun shape ↦ ?_
    cases shape with
    | settled r => exact .pure r
    | definition ns => exact hentry ns

/-- Prototypes that are tried in turn mint what they have minted when they failed. -/
theorem accounts_tryPrototypes {build : Component → Build Component}
    (h : ∀ c, Accounts given (build c)) (failure : Error) (ps : List Prototype) :
    Accounts given (tryPrototypes build failure ps) := by
  induction ps generalizing failure with
  | nil => exact .throw failure
  | cons p ps ih =>
    rw [tryPrototypes]
    exact (h p.instantiate).undoing.tryCatch ih

/-- What an entry is to hold is accounted for by the parameters of its definition. -/
theorem accounts_content {populate : Component → Build Component}
    (h : ∀ c, Accounts given (populate c)) : Accounts given (content populate t ns) := by
  have hcomponent (ns : Namespace) : Accounts given (component populate ns t) := by
    cases t with
    | call name parameters internal =>
      refine (Accounts.ask _).bind fun _ ↦ (Accounts.ask _).bind fun ps ↦ ?_
      exact accounts_tryPrototypes (fun c ↦ (h c).bind fun d ↦ .pure _) _ ps
    | _ => exact .throw _
  cases ns with
  | array | value => exact (Accounts.ask _).bind fun a ↦ .pure _
  | ruleSet => exact (Accounts.liftM _).bind fun s ↦ .pure _
  | _ => exact (hcomponent _).bind fun c ↦ .pure _

/-- A match changes nothing, so only what is built in its place is to be accounted for. -/
theorem accounts_matchOr {b : Build Kept} (h : Accounts given b) :
    Accounts given (matchOr t ns b) := by
  refine (Accounts.ask _).bind fun k? ↦ ?_
  cases k? with
  | none => exact h
  | some k => exact .pure k

/-- **A definition is kept under a name that was minted for it**, if it is kept. -/
theorem accounts_findOrKeep {populate : Component → Build Component}
    (h : ∀ given c, Accounts given (populate c)) :
    Accounts given (findOrKeep populate t ns) :=
  accounts_matchOr (.bind_mint fun _ ↦ (accounts_content (h _)).bind fun x ↦
    accounts_matchOr (.keep (Set.mem_insert _ _) x))

end

mutual

/-- **What is found or built is accounted for** without a place that is given. -/
theorem accounts_findOrBuild : (t : Term) → (ns : Namespace) →
    (given : Set (Namespace × String)) → Accounts given (findOrBuild t ns)
  | .reference name, ns, given => by
    rw [findOrBuild]
    exact .ask _
  | .call name ⟨es, form⟩ internal, ns, given => by
    rw [findOrBuild]
    exact accounts_findOrKeep fun given c ↦ accounts_populate name c.names 0 es c given
  | .text _, ns, given | .capture _, ns, given | .array _, ns, given | .listing _, ns, given
  | .rule _ _, ns, given => by
    rw [findOrBuild_of_data]
    · exact accounts_findOrKeep fun given c ↦ .pure c
    · rfl
    · nofun

/-- The parameters of a definition are accounted for one by one. -/
theorem accounts_populate (generic : String) (names : List String) (index : Nat) :
    (es : List (Entry Term)) → (c : Component) → (given : Set (Namespace × String)) →
      Accounts given (populate generic names index es c)
  | [], c, given => by
    rw [populate]
    exact .pure c
  | ⟨label, modifiers, t⟩ :: es, c, given => by
    have hfind (ns : Namespace) : Accounts given (findOrBuild t ns) :=
      accounts_findOrBuild t ns given
    rw [populate]
    exact (Accounts.liftM _).bind fun name ↦ (Accounts.liftM _).bind fun kind ↦
      (accounts_resolve hfind kind).bind fun r ↦ (Accounts.liftM _).bind fun c' ↦
        accounts_populate generic names (index + 1) es c' given

end

theorem accounts_populateFrom (t : Term) (given : Set (Namespace × String)) (c : Component) :
    Accounts given (populateFrom t c) := by
  cases t with
  | call name parameters _ => exact accounts_populate name c.names 0 parameters.entries c given
  | _ => exact .pure c

/-- **What a construction keeps is accounted for**, and its own place has to be given only if it is
not minted. -/
theorem accounts_construct (ns : Namespace) (name? : Option String) (t : Term) :
    Accounts {x | x.1 = ns ∧ name? = some x.2} (construct ns name? t) := by
  have hlast (given : Set (Namespace × String)) (name : String) (h : (ns, name) ∈ given) :
      Accounts given (do Build.keep ns name (← content (populateFrom t) t ns)) :=
    (accounts_content (accounts_populateFrom t given)).bind fun x ↦ .keep h x
  cases name? with
  | some name =>
    rw [construct, nameFor, bind_assoc]
    refine (Accounts.ask _).bind fun _ ↦ ?_
    rw [pure_bind]
    exact hlast _ name ⟨rfl, rfl⟩
  | none => exact .bind_mint fun name ↦ hlast _ name (Set.mem_insert _ _)

end Build

end TermRegistry
