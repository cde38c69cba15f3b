import TermRegistry.Context
import TermRegistry.Proofs.RoundTrip
import TermRegistry.Proofs.Success
import TermRegistry.Proofs.Uniformity
import TermRegistry.RuleSet.Application

/-!
# Listings that are assembled from entries

Where a listing is assembled from entries, the entries have to be uniform, or else the assembly
stops. This never happens: not when a composition is put together, not when a rule set or a context
is written, and not when a rule is applied. Substitution takes every listing of a target apart, at
any depth, and assembles it anew from types and names; `Term.assemble` does this with the check made
each time, and `Term.assemble_eq` says that it comes to the same as `Term.substitute`, which makes
none.

This needs the listings of the target to be sound (`Term.isSound`). The ones that the parser returns
are, since all that it returns is well-formed (`Term.isSound_of_isWellFormed`), and substitution
keeps them so (`Term.isSound_of_substitute`).
-/

namespace TermRegistry

/-! ### Assembling a listing -/

/-- What stops an assembly: an error that is reported, or entries that are not uniform. -/
inductive Halt
  | failed (e : Error)
  | mixed

namespace Listing

variable {α : Type} {es ds : List (Entry α)} {form : Form}

/-- **Assembles a listing** from entries, in the form that they call for, or in statement form if
the listing that they stand for is. -/
def assemble (form : Form) (es : List (Entry α)) : Except Halt (Listing α) :=
  match ofEntries? es with
  | some l => .ok (l.inForm form)
  | none => .error .mixed

/-- **A sound listing is assembled from its own entries.** -/
theorem Sound.assemble_eq (h : Sound ⟨es, form⟩) : assemble form es = .ok ⟨es, form⟩ := by
  rw [assemble, ofEntries?_eq_some.2 ⟨h.uniform, rfl⟩]
  exact congrArg _ h.inForm_ofEntries

/-- Whether a listing is sound is a question about its labels and its form. -/
theorem Sound.congr (h : Sound ⟨es, form⟩) (hlabels : ds.map (·.label) = es.map (·.label)) :
    Sound ⟨ds, form⟩ := by
  have htyped (gs : List (Entry α)) :
      gs.any (·.type?.isSome) = (gs.map (·.label)).any (·.type?.isSome) := by
    rw [List.any_map]
    rfl
  refine ⟨(uniform_congr hlabels).2 h.uniform, fun hds ↦ ?_⟩
  rw [isTyped, htyped, hlabels, ← htyped] at hds
  exact h.isStatements hds

/-- Statements are sound: they are named. -/
theorem sound_of_areStatements (h : areStatements es = true) : Sound ⟨es, .statements⟩ :=
  sound_statements.2 <| .inl fun e he ↦ (Bool.and_eq_true_iff.1 (List.all_eq_true.1 h e he)).1

/-- Parameters are sound: they are uniform and have no declaration types. -/
theorem sound_of_areParameters (h : areParameters es = true) : Sound ⟨es, form⟩ := by
  rw [areParameters, Bool.and_eq_true, decide_eq_true_iff] at h
  refine ⟨h.2, fun htyped ↦ ?_⟩
  obtain ⟨e, he, hsome⟩ := List.any_eq_true.1 htyped
  have hnone := (Bool.and_eq_true_iff.1 (List.all_eq_true.1 h.1 e he)).1
  rw [← Option.not_isSome, hsome] at hnone
  cases hnone

end Listing

/-- An entry from a value and what another entry's type, name and modifiers are. An entry without a
type has no modifiers. -/
def Entry.assemble {α : Type} (label : Label) (modifiers : List String) (value : α) : Entry α :=
  match label.type?, label.name? with
  | some type, some name => ⟨.typed type name, modifiers, value⟩
  | none, some name => ⟨.named name, [], value⟩
  | _, none => ⟨.positional, [], value⟩

theorem Entry.assemble_eq {α : Type} (label : Label) (modifiers : List String) (value : α) :
    assemble label modifiers value =
      ⟨label, if label.type?.isSome then modifiers else [], value⟩ := by
  cases label <;> rfl

/-! ### Sound terms -/

namespace Term

mutual

/-- **Sound terms**: all listings in them are sound, those of calls and internal ones included. -/
def isSound : Term → Bool
  | text _ | reference _ | capture _ => true
  | array items => allSound items
  | listing ⟨entries, form⟩ => decide (Listing.Sound ⟨entries, form⟩) && entriesSound entries
  | call _ ⟨entries, form⟩ none => decide (Listing.Sound ⟨entries, form⟩) && entriesSound entries
  | call _ ⟨entries, form⟩ (some internal) =>
    decide (Listing.Sound ⟨entries, form⟩) && entriesSound entries &&
      (decide (Listing.Sound ⟨internal, .statements⟩) && entriesSound internal)
  | rule source target => source.isSound && target.isSound

/-- Whether some terms are all sound. -/
def allSound : List Term → Bool
  | [] => true
  | t :: ts => t.isSound && allSound ts

/-- Whether the values of some entries are all sound. -/
def entriesSound : List (Entry Term) → Bool
  | [] => true
  | ⟨_, _, t⟩ :: es => t.isSound && entriesSound es

end

mutual

/-- **Terms that can be written are sound.** -/
theorem isSound_of_isWellFormed : (t : Term) → t.isWellFormed = true → t.isSound = true
  | text _, _ | reference _, _ | capture _, _ => rfl
  | array items, h => allSound_of_allWellFormed items h
  | listing _, h => nomatch h
  | call _ ⟨entries, _⟩ none, h => by
    simp only [isWellFormed, Bool.and_eq_true] at h
    simp only [isSound, Bool.and_eq_true, decide_eq_true_iff]
    exact ⟨Listing.sound_of_areParameters h.1.2, entriesSound_of_entriesWellFormed entries h.2⟩
  | call _ ⟨entries, _⟩ (some internal), h => by
    simp only [isWellFormed, Bool.and_eq_true] at h
    obtain ⟨⟨⟨⟨-, hparameters⟩, hentries⟩, hstatements⟩, hinternal⟩ := h
    simp only [isSound, Bool.and_eq_true, decide_eq_true_iff]
    exact ⟨⟨Listing.sound_of_areParameters hparameters,
      entriesSound_of_entriesWellFormed entries hentries⟩,
      Listing.sound_of_areStatements hstatements,
      entriesSound_of_entriesWellFormed internal hinternal⟩
  | rule source target, h => by
    rw [isWellFormed, Bool.and_eq_true] at h
    rw [isSound, isSound_of_isWellFormed source h.1, isSound_of_isWellFormed target h.2]
    rfl

theorem allSound_of_allWellFormed : (ts : List Term) → allWellFormed ts = true → allSound ts = true
  | [], _ => rfl
  | t :: ts, h => by
    rw [allWellFormed, Bool.and_eq_true] at h
    rw [allSound, isSound_of_isWellFormed t h.1, allSound_of_allWellFormed ts h.2]
    rfl

theorem entriesSound_of_entriesWellFormed :
    (es : List (Entry Term)) → entriesWellFormed es = true → entriesSound es = true
  | [], _ => rfl
  | ⟨_, _, t⟩ :: es, h => by
    rw [entriesWellFormed, Bool.and_eq_true] at h
    rw [entriesSound, isSound_of_isWellFormed t h.1, entriesSound_of_entriesWellFormed es h.2]
    rfl

end

end Term

/-- Statement lists are sound. -/
theorem Listing.isSound_of_isStatementList {l : Listing Term} (h : l.isStatementList = true) :
    (Term.listing l).isSound = true := by
  obtain ⟨es, form⟩ := l
  simp only [isStatementList, Bool.and_eq_true, beq_iff_eq] at h
  obtain ⟨⟨rfl, hes⟩, hvalues⟩ := h
  simp only [Term.isSound, Bool.and_eq_true, decide_eq_true_iff]
  exact ⟨sound_of_areStatements hes, Term.entriesSound_of_entriesWellFormed es hvalues⟩

/-- Parameter lists are sound. -/
theorem Listing.isSound_of_isParameterList {l : Listing Term} (h : l.isParameterList = true) :
    (Term.listing l).isSound = true := by
  obtain ⟨es, form⟩ := l
  simp only [isParameterList, Bool.and_eq_true] at h
  simp only [Term.isSound, Bool.and_eq_true, decide_eq_true_iff]
  exact ⟨sound_of_areParameters h.1.2, Term.entriesSound_of_entriesWellFormed es h.2⟩

/-- A sound term that is a listing is what its entries make of an empty one. -/
theorem Listing.run_pushes_of_isSound {l : Listing Term} (h : (Term.listing l).isSound = true) :
    run ⟨[], l.form⟩ (l.entries.map .push) = l := by
  rw [Term.isSound, Bool.and_eq_true, decide_eq_true_iff] at h
  exact h.1.run_pushes

/-! ### Substitution that checks what it assembles -/

namespace Term

mutual

/-- **Simultaneous substitution that checks** the entries of every listing it assembles. -/
def assemble (given : String → Option Term) : Term → Except Halt Term
  | text s => .ok (text s)
  | reference name =>
    match given name with
    | some t => .ok t
    | none => .error (.failed (.unresolved name))
  | capture name => .error (.failed (.structural (.misplacedCapture name)))
  | array items => do return array (← assembleAll given items)
  | listing ⟨entries, form⟩ => do
    return listing (← Listing.assemble form (← assembleEntries given entries))
  | call name ⟨entries, form⟩ none => do
    return call name (← Listing.assemble form (← assembleEntries given entries)) none
  | call name ⟨entries, form⟩ (some internal) => do
    let parameters ← Listing.assemble form (← assembleEntries given entries)
    let internal ← Listing.assemble .statements (← assembleEntries given internal)
    return call name parameters (some internal.toStatements.entries)
  | rule source target => do
    return rule (← source.assemble given) (← target.assemble given)

/-- The same in each of some terms. -/
def assembleAll (given : String → Option Term) : List Term → Except Halt (List Term)
  | [] => .ok []
  | t :: ts => do
    let t ← t.assemble given
    return t :: (← assembleAll given ts)

/-- The same in the values of some entries, which are made anew. -/
def assembleEntries (given : String → Option Term) :
    List (Entry Term) → Except Halt (List (Entry Term))
  | [] => .ok []
  | ⟨label, modifiers, t⟩ :: es => do
    let t ← t.assemble given
    return .assemble label modifiers t :: (← assembleEntries given es)

end

/-- Substitution does not change labels. -/
theorem labels_substituteEntries {given : String → Option Term} {es ds : List (Entry Term)}
    (h : substituteEntries given es = .ok ds) : ds.map (·.label) = es.map (·.label) := by
  induction es generalizing ds with
  | nil =>
    cases h
    rfl
  | cons e es ih =>
    obtain ⟨u, -, hrest⟩ := bind_eq_ok.1 h
    obtain ⟨us, hus, hds⟩ := bind_eq_ok.1 hrest
    cases hds
    rw [List.map_cons, List.map_cons, ih hus]

/-- The check is not in the way where a sound listing is assembled after substitution. -/
theorem assemble_bind {α : Type} {given : String → Option Term} {es : List (Entry Term)}
    {form : Form} (h : Listing.Sound ⟨es, form⟩) (next : Listing Term → Except Halt α) :
    ((substituteEntries given es).mapError .failed >>= fun ds ↦
        Listing.assemble form ds >>= next) =
      (substituteEntries given es).mapError .failed >>= fun ds ↦ next ⟨ds, form⟩ := by
  cases hds : substituteEntries given es with
  | error e => rfl
  | ok ds =>
    show Listing.assemble form ds >>= next = next ⟨ds, form⟩
    rw [(h.congr (labels_substituteEntries hds)).assemble_eq]
    rfl

mutual

/-- **No check fails in a sound term**: the result is that of substitution without checks. -/
theorem assemble_eq (given : String → Option Term) :
    (t : Term) → t.isSound = true → t.assemble given = (t.substitute given).mapError .failed
  | text _, _ | capture _, _ => rfl
  | reference name, _ => by
    rw [assemble, substitute]
    cases given name <;> rfl
  | array items, h => by
    rw [assemble, substitute, assembleAll_eq given items h]
    cases substituteAll given items <;> rfl
  | listing ⟨entries, form⟩, h => by
    simp only [isSound, Bool.and_eq_true, decide_eq_true_iff] at h
    rw [assemble, substitute, assembleEntries_eq given entries h.2, assemble_bind h.1]
    cases substituteEntries given entries <;> rfl
  | call name ⟨entries, form⟩ none, h => by
    simp only [isSound, Bool.and_eq_true, decide_eq_true_iff] at h
    rw [assemble, substitute, assembleEntries_eq given entries h.2, assemble_bind h.1]
    cases substituteEntries given entries <;> rfl
  | call name ⟨entries, form⟩ (some internal), h => by
    simp only [isSound, Bool.and_eq_true, decide_eq_true_iff] at h
    obtain ⟨⟨hsound, hvalues⟩, hinternal, hinside⟩ := h
    rw [assemble, substitute, substituteInternal, assembleEntries_eq given entries hvalues,
      assembleEntries_eq given internal hinside, assemble_bind hsound]
    -- The labels stay as they are, so both listings are as uniform afterwards as they were before,
    -- and no entry is refused.
    simp only [assemble_bind hinternal]
    cases substituteEntries given entries with
    | error e => rfl
    | ok es => cases substituteEntries given internal <;> rfl
  | rule source target, h => by
    rw [isSound, Bool.and_eq_true] at h
    rw [assemble, substitute, assemble_eq given source h.1, assemble_eq given target h.2]
    cases source.substitute given with
    | error e => rfl
    | ok s => cases target.substitute given <;> rfl

theorem assembleAll_eq (given : String → Option Term) : (ts : List Term) → allSound ts = true →
    assembleAll given ts = (substituteAll given ts).mapError .failed
  | [], _ => rfl
  | t :: ts, h => by
    rw [allSound, Bool.and_eq_true] at h
    rw [assembleAll, substituteAll, assemble_eq given t h.1, assembleAll_eq given ts h.2]
    cases t.substitute given with
    | error e => rfl
    | ok u => cases substituteAll given ts <;> rfl

theorem assembleEntries_eq (given : String → Option Term) :
    (es : List (Entry Term)) → entriesSound es = true →
      assembleEntries given es = (substituteEntries given es).mapError .failed
  | [], _ => rfl
  | ⟨label, modifiers, t⟩ :: es, h => by
    rw [entriesSound, Bool.and_eq_true] at h
    simp only [assembleEntries, substituteEntries, Entry.assemble_eq]
    rw [assemble_eq given t h.1, assembleEntries_eq given es h.2]
    cases t.substitute given with
    | error e => rfl
    | ok u => cases substituteEntries given es <;> rfl

end

mutual

/-- **Substitution keeps terms sound**, if whatever is given is sound. -/
theorem isSound_of_substitute {given : String → Option Term}
    (hgiven : ∀ name v, given name = some v → v.isSound = true) :
    (t : Term) → t.isSound = true → ∀ {u : Term}, t.substitute given = .ok u → u.isSound = true
  | text _, _, _, hu => by
    cases hu
    rfl
  | reference name, _, u, hu => by
    rw [substitute] at hu
    split at hu
    · next t hname =>
      cases hu
      exact hgiven name _ hname
    · cases hu
  | capture _, _, _, hu => nomatch hu
  | array items, h, _, hu => by
    obtain ⟨us, hus, hu⟩ := bind_eq_ok.1 hu
    cases hu
    exact allSound_of_substituteAll hgiven items h hus
  | listing ⟨entries, form⟩, h, _, hu => by
    simp only [isSound, Bool.and_eq_true, decide_eq_true_iff] at h
    obtain ⟨ds, hds, hu⟩ := bind_eq_ok.1 hu
    cases hu
    simp only [isSound, Bool.and_eq_true, decide_eq_true_iff]
    exact ⟨h.1.congr (labels_substituteEntries hds),
      entriesSound_of_substituteEntries hgiven entries h.2 hds⟩
  | call name ⟨entries, form⟩ none, h, _, hu => by
    simp only [isSound, Bool.and_eq_true, decide_eq_true_iff] at h
    obtain ⟨ds, hds, hu⟩ := bind_eq_ok.1 hu
    cases hu
    simp only [isSound, Bool.and_eq_true, decide_eq_true_iff]
    exact ⟨h.1.congr (labels_substituteEntries hds),
      entriesSound_of_substituteEntries hgiven entries h.2 hds⟩
  | call name ⟨entries, form⟩ (some internal), h, _, hu => by
    simp only [isSound, Bool.and_eq_true, decide_eq_true_iff] at h
    obtain ⟨⟨hsound, hvalues⟩, hinternal, hinside⟩ := h
    obtain ⟨ds, hds, hu⟩ := bind_eq_ok.1 hu
    obtain ⟨is?, his?, hu⟩ := bind_eq_ok.1 hu
    obtain ⟨is, his, hsome⟩ := bind_eq_ok.1 his?
    cases hsome
    cases hu
    simp only [isSound, Bool.and_eq_true, decide_eq_true_iff]
    exact ⟨⟨hsound.congr (labels_substituteEntries hds),
      entriesSound_of_substituteEntries hgiven entries hvalues hds⟩,
      hinternal.congr (labels_substituteEntries his),
      entriesSound_of_substituteEntries hgiven internal hinside his⟩
  | rule source target, h, _, hu => by
    rw [isSound, Bool.and_eq_true] at h
    obtain ⟨s, hs, hu⟩ := bind_eq_ok.1 hu
    obtain ⟨g, hg, hu⟩ := bind_eq_ok.1 hu
    cases hu
    rw [isSound, isSound_of_substitute hgiven source h.1 hs,
      isSound_of_substitute hgiven target h.2 hg]
    rfl

theorem allSound_of_substituteAll {given : String → Option Term}
    (hgiven : ∀ name v, given name = some v → v.isSound = true) :
    (ts : List Term) → allSound ts = true →
      ∀ {us : List Term}, substituteAll given ts = .ok us → allSound us = true
  | [], _, _, hus => by
    cases hus
    rfl
  | t :: ts, h, _, hus => by
    rw [allSound, Bool.and_eq_true] at h
    obtain ⟨u, hu, hus⟩ := bind_eq_ok.1 hus
    obtain ⟨vs, hvs, hus⟩ := bind_eq_ok.1 hus
    cases hus
    rw [allSound, isSound_of_substitute hgiven t h.1 hu,
      allSound_of_substituteAll hgiven ts h.2 hvs]
    rfl

theorem entriesSound_of_substituteEntries {given : String → Option Term}
    (hgiven : ∀ name v, given name = some v → v.isSound = true) :
    (es : List (Entry Term)) → entriesSound es = true →
      ∀ {ds : List (Entry Term)}, substituteEntries given es = .ok ds → entriesSound ds = true
  | [], _, _, hds => by
    cases hds
    rfl
  | ⟨label, modifiers, t⟩ :: es, h, _, hds => by
    rw [entriesSound, Bool.and_eq_true] at h
    obtain ⟨u, hu, hds⟩ := bind_eq_ok.1 hds
    obtain ⟨vs, hvs, hds⟩ := bind_eq_ok.1 hds
    cases hds
    rw [entriesSound, isSound_of_substitute hgiven t h.1 hu,
      entriesSound_of_substituteEntries hgiven es h.2 hvs]
    rfl

end

end Term

/-! ### Where listings come from -/

/-- A composition is assembled from its two operands. -/
theorem Term.composite_assembled (f g : Term) :
    ∃ l, Listing.ofEntries? [⟨.named "f", [], f⟩, ⟨.named "g", [], g⟩] = some l ∧
      composite f g = call compositeName l none := by
  refine ⟨_, Listing.ofEntries?_of_named ?_, rfl⟩
  simp [Entry.name?, Label.name?]

/-- A rule set is assembled from the statements of its rules. -/
theorem RuleSet.toTerm_assembled (s : RuleSet) :
    ∃ l, Listing.ofEntries? (s.rules.map statement) = some l ∧
      s.toTerm = .call genericName {} (some l.toStatements.entries) := by
  refine ⟨_, Listing.ofEntries?_of_named fun e he ↦ ?_, rfl⟩
  obtain ⟨r, -, rfl⟩ := List.mem_map.1 he
  rfl

/-- The statements of a context are assembled from those of its entries. -/
theorem Context.statements_assembled (ctx : Context) :
    Listing.ofEntries? (ctx.entries.map Kept.statement) = some ctx.statements := by
  refine Listing.ofEntries?_of_named fun e he ↦ ?_
  obtain ⟨k, -, rfl⟩ := List.mem_map.1 he
  rfl

/-- The parser pushes statements, of which none is refused. -/
theorem Listing.pushes_of_parseStatements {text : String} {l : Listing Term}
    (h : parseStatements text = .ok l) : (Term.listing l).isSound = true ∧
      run ⟨[], .statements⟩ (l.entries.map .push) = l := by
  have hsound := isSound_of_isStatementList (isStatementList_of_parseStatements h)
  have hform := (parseStatements_eq_ok.1 h).1
  exact ⟨hsound, hform ▸ run_pushes_of_isSound hsound⟩

/-- The parser pushes parameters, of which none is refused. -/
theorem Listing.pushes_of_parseParameters {text : String} {l : Listing Term}
    (h : parseParameters text = .ok l) : (Term.listing l).isSound = true ∧
      run {} (l.entries.map .push) = l := by
  have hsound := isSound_of_isParameterList (isParameterList_of_parseParameters h)
  have hform := (parseParameters_eq_ok.1 h).1
  exact ⟨hsound, hform ▸ run_pushes_of_isSound hsound⟩

/-- **Listings never mix** named and positional entries, and nothing is ever assembled from entries
that do.

* A listing that is built by some calls is sound and holds what is named as its first entry is. A
  push is refused just when the entries would mix, and then changes nothing. The sound listings are
  just those that can be built.
* Compositions, which are all that the parser assembles, rule sets and contexts are assembled from
  named entries. What the parser returns is sound, and nothing that it pushes on the way is refused.
* Substitution in a term whose listings can be built finds uniform entries for each of them, and
  its result is such a term again. -/
theorem listings_stay_uniform {α : Type} {start : Listing α} (hstart : start.Fresh)
    (calls : List (Listing.Call α)) :
    ((start.run calls).Sound ∧
      (start.run calls).entries = Listing.alike (start.entries ++ Listing.pushed calls) ∧
      ∀ e, ((start.run calls).push? e = none ↔
          ¬Listing.Uniform ((start.run calls).entries ++ [e])) ∧
        ((start.run calls).push? e = none →
          start.run (calls ++ [.push e]) = start.run calls)) ∧
    (∀ l : Listing Term, l.Sound ↔
      ∃ (first : Listing Term) (built : List (Listing.Call Term)),
        first.Fresh ∧ first.run built = l) ∧
    (∀ f g : Term, ∃ l, Listing.ofEntries? [⟨.named "f", [], f⟩, ⟨.named "g", [], g⟩] = some l ∧
      Term.composite f g = .call Term.compositeName l none) ∧
    (∀ text t, Term.parse text = .ok t → t.isSound = true) ∧
    (∀ text l, Listing.parseStatements text = .ok l → (Term.listing l).isSound = true ∧
      Listing.run ⟨[], .statements⟩ (l.entries.map .push) = l) ∧
    (∀ text l, Listing.parseParameters text = .ok l → (Term.listing l).isSound = true ∧
      Listing.run {} (l.entries.map .push) = l) ∧
    (∀ given t, Term.isSound t = true →
      t.assemble given = (t.substitute given).mapError .failed) ∧
    (∀ given t u, (∀ name v, given name = some v → Term.isSound v = true) →
      Term.isSound t = true → t.substitute given = .ok u → u.isSound = true) ∧
    (∀ s : RuleSet, ∃ l, Listing.ofEntries? (s.rules.map RuleSet.statement) = some l ∧
      s.toTerm = .call RuleSet.genericName {} (some l.toStatements.entries)) ∧
    (∀ ctx : Context, Listing.ofEntries? (ctx.entries.map Kept.statement) =
      some ctx.statements) := by
  have hsound := hstart.sound
  have hbuilt := hsound.run calls
  refine ⟨⟨hbuilt, hsound.entries_run calls,
      fun e ↦ ⟨Listing.push?_eq_none hbuilt.uniform, fun he ↦ ?_⟩⟩,
    fun l ↦ ⟨Listing.Sound.exists_run, ?_⟩, Term.composite_assembled,
    fun text t ht ↦ Term.isSound_of_isWellFormed t (Term.isWellFormed_of_parse ht),
    fun text l hl ↦ Listing.pushes_of_parseStatements hl,
    fun text l hl ↦ Listing.pushes_of_parseParameters hl, Term.assemble_eq,
    fun given t u hgiven ht hu ↦ Term.isSound_of_substitute hgiven t ht hu,
    RuleSet.toTerm_assembled, Context.statements_assembled⟩
  · rw [Listing.run_append]
    exact Listing.after_of_refused he
  · rintro ⟨first, built, hfirst, rfl⟩
    exact hfirst.sound.run built

/-- A positional entry is pushed between two that are named. -/
def mixedCalls : List (Listing.Call Term) :=
  [.push ⟨.named "a", [], .text "1"⟩, .push ⟨.positional, [], .text "2"⟩,
    .push ⟨.typed "value" "b", [], .text "3"⟩]

/-- A call with an argument and an internal listing, and a reference in each of them. -/
def nestedTarget : Term :=
  .call "F" ⟨[⟨.positional, [], .reference "x"⟩], .parameters⟩
    (some [⟨.typed "value" "y", ["fixed"], .array [.reference "x"]⟩])

/-- The positional entry is refused, and the target is assembled with its internal listing. -/
theorem listings_stay_uniform_refused :
    (Listing.Fresh ({} : Listing Term) ∧ (Listing.run {} mixedCalls).Sound ∧
      (Listing.run {} mixedCalls).entries =
        [⟨.named "a", [], .text "1"⟩, ⟨.typed "value" "b", [], .text "3"⟩]) ∧
    nestedTarget.isSound = true ∧
      nestedTarget.assemble (fun _ ↦ some (.text "1")) =
        .ok (.call "F" ⟨[⟨.positional, [], .text "1"⟩], .parameters⟩
          (some [⟨.typed "value" "y", ["fixed"], .array [.text "1"]⟩])) := by
  obtain ⟨⟨hsound, hentries, -⟩, -, -, -, -, -, hassemble, -⟩ :=
    listings_stay_uniform (.parameters : Listing.Fresh ({} : Listing Term)) mixedCalls
  exact ⟨⟨.parameters, hsound, hentries⟩, rfl, hassemble _ nestedTarget rfl⟩

end TermRegistry
