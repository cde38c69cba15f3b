import TermRegistry.Proofs.Naming.Parallel

/-!
# Names that are given

A name that is given to a new entry is looked up twice: before anything is built, and when the entry
is kept. In between, the definitions inside are built, and each of them that is kept takes a number
for its name. So a name that was free can be taken when it is needed, if it is one of these numbers
(`Context.Reachable.construct_free`). No other name that was free is refused.

The numbers are also what a given name changes besides. An anonymous entry mints its own number
first, and a given name leaves that number to the definitions inside. If a definition is accepted
anonymously and no number is mentioned that can be minted, then it is accepted under a given name as
well, as long as this is not minted on the way. Without the condition it may not be: a reference to
a number finds the entry that happens to get it.

**Design.** The error that is reported comes from `Build.error_of_construct`, which looks at one
course of the construction. That the other names are accepted compares two courses, from the same
context with different counters (`Build.tally_content`).
-/

namespace TermRegistry

namespace Build

variable {p : Progress} {ns : Namespace} {name : String} {t : Term}

/-- An anonymous definition is built and kept under the number that was minted before. -/
theorem outcome_construct_anonymous (p : Progress) (ns : Namespace) (t : Term) :
    outcome (construct ns none t) p =
      outcome (content (populateFrom t) t ns >>= keep ns (p.context.nextNumber ns).repr)
        { p with context := p.context.withCounter (p.context.nextNumber ns + 1) } :=
  rfl

end Build

namespace Context

variable {ctx : Context} {ns : Namespace} {name : String} {t : Term}

/-! ### Operations as a whole -/

/-- Numbers that were minted are used up, also if the operation fails. -/
theorem counter_perform {α : Type} (ctx : Context) (b : Build α) :
    (ctx.perform b).context.counter = (b.outcome ⟨ctx, []⟩).2.context.counter := by
  show (Build.outcome (Build.undoing b) ⟨ctx, []⟩).2.context.counter = _
  rw [Build.outcome_undoing]
  split
  · next h => rw [h]
  · next h => rw [h, Progress.counter_undo]

/-! ### Numbers that are mentioned -/

/-- The names that can be minted: the numbers from the counter on. -/
def numbers (ctx : Context) : Set String := {x | ∃ n, ctx.counter ≤ n ∧ x = n.repr}

/-- A name that was minted is one of the numerals from the counter on. -/
theorem Minted.mem_numbers {ctx' : Context} (h : ctx.Minted ctx' name) : name ∈ ctx.numbers := by
  obtain ⟨n, hn, -, rfl⟩ := h
  exact ⟨n, hn, rfl⟩

/-- A name in which not all characters are digits is not minted. -/
theorem notMem_numbers {c : Char} (hc : c ∈ name.toList) (hdigit : c.isDigit = false) :
    name ∉ ctx.numbers := by
  rintro ⟨n, -, rfl⟩
  rw [Nat.toList_repr] at hc
  rw [Nat.isDigit_of_mem_toDigits (by decide) (by decide) hc] at hdigit
  cases hdigit

/-- **No number is mentioned that can be minted**: neither in a definition, nor in the terms of
entries, nor in the defaults of parameters. -/
structure LeavesNumbers (ctx : Context) (t : Term) : Prop where
  definition : t.Avoids ctx.numbers
  entries : ∀ k ∈ ctx.entries, k.toTerm.Avoids ctx.numbers
  defaults : ctx.factories.Avoids ctx.numbers

/-- A context differs from itself in names that it and the definition leave alone. -/
theorem LeavesNumbers.renamed (h : ctx.LeavesNumbers t) (hc : ctx.Coherent) :
    Renamed ctx.numbers ctx ctx :=
  .refl hc (fun n hn ↦ ⟨n, hn, rfl⟩)
    (fun _ _ k hk ↦ h.entries k (mem_entries_of_find? hc hk)) h.defaults

/-! ### Names that are refused -/

/-- **What a construction fails with** says of no entry that its name is taken, unless of the new
one under its given name, which was there before or was minted on the way. -/
theorem error_of_construct (hc : ctx.Coherent) {name? : Option String} {e : Error}
    (he : (ctx.construct ns name? t).result = .error e) :
    e.SparesEntries ∨ ∃ name, name? = some name ∧ e = .duplicateName ns.tag name ∧
      (ctx.contains ns name = true ∨ ctx.Minted (ctx.construct ns name? t).context name) := by
  rw [construct, result_perform] at he
  refine (Build.error_of_construct hc he).imp id ?_
  rintro ⟨name, hname, heq, htaken⟩
  refine ⟨name, hname, heq, htaken.imp id fun hminted ↦ ?_⟩
  exact hminted.mono (Nat.le_refl _) (Nat.le_of_eq (counter_perform ctx _).symm)

/-- **What is accepted anonymously is accepted under a free name**, or the name was minted on the
way. -/
theorem construct_of_anonymous (hc : ctx.Coherent) (hfree : ctx.contains ns name = false)
    (ht : ctx.LeavesNumbers t) {k : Kept} (hk : (ctx.construct ns none t).result = .ok k) :
    (ctx.construct ns (some name) t).result = .error (.duplicateName ns.tag name) ∨
      ∃ l, (ctx.construct ns (some name) t).result = .ok l ∧ l.toTerm = k.toTerm := by
  have htally := Build.tally_content (p := ⟨ctx, []⟩)
    (q := ⟨ctx.withCounter (ctx.nextNumber ns + 1), []⟩) (Build.populates_populateFrom t)
    (Build.tally_populateFrom ht.definition) ((ht.renamed hc).raised (.refl ctx) (.mint ctx ns))
    ht.definition ns
  rw [construct, result_perform, Build.outcome_construct_anonymous, Build.outcome_bind] at hk
  rw [construct, result_perform, Build.outcome_construct_named hfree, Build.outcome_bind]
  simp only at hk
  generalize Build.outcome _ _ = x at htally ⊢
  generalize Build.outcome _ _ = y at htally hk
  cases htally with
  | error e e' p q => cases hk
  | @ok a b p q hab hpq =>
    simp only [Build.outcome_keep] at hk ⊢
    split at hk
    · cases hk
    · cases hk
      split
      · exact .inl rfl
      · exact .inr ⟨_, rfl, hab.alike.toTerm_eq⟩

/-- What a declaration fails with. -/
theorem error_of_declare (hc : ctx.Coherent) {s : Entry Term} {e : Error}
    (he : (ctx.declare s).result = .error e) :
    e.SparesEntries ∨ ∃ ns name, declaredNamespace s = .ok ns ∧ s.name? = some name ∧
      e = .duplicateName ns.tag name ∧
        (ctx.contains ns name = true ∨ ctx.Minted (ctx.declare s).context name) := by
  cases hns : declaredNamespace s with
  | ok ns =>
    rw [declare_eq hns] at he ⊢
    refine (error_of_construct hc he).imp id ?_
    rintro ⟨name, hname, heq, htaken⟩
    exact ⟨ns, name, rfl, hname, heq, htaken⟩
  | error e' =>
    rw [declare, hns] at he
    cases he
    rw [declaredNamespace] at hns
    split at hns
    · rw [Namespace.parse] at hns
      split at hns
      · cases hns
      · cases hns
        exact .inl (.structural _)
    · cases hns
      exact .inl (.structural _)

/-- **A free name is refused only if it is minted on the way.** A construction in a reachable
context, under a name that was free, can fail because a name is taken in two cases: two rules of a
rule set have the same name, or the given name is a number that was minted for a definition inside.
What is accepted anonymously is accepted under the given name, with the same term, unless the name
is minted, if no number is mentioned that can be minted. A declaration is such a construction, and
loading a text fails because a name is taken only at a statement whose name was there before, or was
minted while it was built. -/
theorem Reachable.construct_free (h : ctx.Reachable) (hfree : ctx.contains ns name = false)
    (t : Term) :
    (∀ scope n, (ctx.construct ns (some name) t).result = .error (.duplicateName scope n) →
      scope = RuleSet.ruleType ∨
        scope = ns.tag ∧ n = name ∧ ctx.Minted (ctx.construct ns (some name) t).context name) ∧
    (ctx.LeavesNumbers t → ∀ k, (ctx.construct ns none t).result = .ok k →
      ctx.Minted (ctx.construct ns (some name) t).context name ∨
        ∃ l, (ctx.construct ns (some name) t).result = .ok l ∧ l.name = name ∧
          l.toTerm = k.toTerm) ∧
    (∀ s, declaredNamespace s = .ok ns → s.name? = some name → s.value = t →
      ctx.declare s = ctx.construct ns (some name) t) ∧
    ∀ text l, Listing.parseStatements text = .ok l → ∀ scope n,
      (ctx.load text).result = .error (.duplicateName scope n) →
        scope = RuleSet.ruleType ∨ ∃ done s rest ns', l.entries = done ++ s :: rest ∧
          (ctx.declareAll done).result = .ok () ∧ declaredNamespace s = .ok ns' ∧
          scope = ns'.tag ∧ s.name? = some n ∧
          ((ctx.declareAll done).context.contains ns' n = true ∨
            (ctx.declareAll done).context.Minted ((ctx.declareAll done).context.declare s).context
              n) := by
  have hc := h.coherent
  have hrefused : ∀ scope n,
      (ctx.construct ns (some name) t).result = .error (.duplicateName scope n) →
        scope = RuleSet.ruleType ∨
          scope = ns.tag ∧ n = name ∧ ctx.Minted (ctx.construct ns (some name) t).context name := by
    intro scope n he
    rcases error_of_construct hc he with hspares | ⟨name', hname, heq, htaken⟩
    · exact .inl (hspares scope n rfl)
    · cases hname
      cases heq
      rw [hfree] at htaken
      exact .inr ⟨rfl, rfl, htaken.resolve_left Bool.false_ne_true⟩
  refine ⟨hrefused, fun ht k hk ↦ ?_, fun s hns hname hvalue ↦ ?_, fun text l hl scope n he ↦ ?_⟩
  · rcases construct_of_anonymous hc hfree ht hk with he | ⟨l, hl, hterm⟩
    · rcases hrefused _ _ he with hscope | ⟨-, -, hminted⟩
      · exact absurd hscope ns.tag_ne_ruleType
      · exact .inl hminted
    · have hbuilds := perform_ok (Build.meets_construct ns (some name) t) hc hl
      exact .inr ⟨l, hl, hbuilds.name_eq_of_new, hterm⟩
  · rw [declare_eq hns, hname, hvalue]
  · rw [load_of_parse hl] at he
    obtain ⟨done, s, rest, hsplit, hdone, hs, -⟩ := declareAll_error hc he
    obtain ⟨js, hgrows⟩ := declareAll_grows done hc
    rcases error_of_declare (hgrows.coherent hc) hs with
      hspares | ⟨ns', n', hns, hname, heq, htaken⟩
    · exact .inl (hspares scope n rfl)
    · cases heq
      exact .inr ⟨done, s, rest, ns', hsplit, hdone, hns, rfl, hname, htaken⟩

/-- A definition that refers to a function by its name, with another one inside, under a name that
is no number and under the number that the definition inside gets. -/
theorem Reachable.construct_free_nested :
    let call (name : String) (es : List (Entry Term)) : Term := .call name ⟨es, .parameters⟩ none
    let ctx :=
      ((Context.empty 0 ⟨[], [.spanFn]⟩).construct .spanFn (some "h") (call "H" [])).context
    let t := call "G" [⟨.named "p", [], .reference "h"⟩,
      ⟨.named "q", [], call "K" [⟨.named "r", [], .reference "h"⟩]⟩]
    ctx.LeavesNumbers t ∧
      (∃ k l, (ctx.construct .spanFn none t).result = .ok k ∧ k.name = "0" ∧
        (ctx.construct .spanFn (some "main") t).result = .ok l ∧ l.name = "main" ∧
        l.toTerm = k.toTerm) ∧
      ctx.Minted (ctx.construct .spanFn (some "0") t).context "0" := by
  intro call ctx t
  have h : ctx.Reachable := .after (.empty 0 _) (.construct .spanFn (some "h") (call "H" []))
  have hfactories : ctx.factories = ⟨[], [.spanFn]⟩ := by decide +kernel
  have hentries : ∀ k ∈ ctx.entries, k.toTerm.references = [] := by decide +kernel
  have hreferences : ∀ x ∈ t.references, x = "h" := by decide
  have hmain : ctx.contains .spanFn "main" = false := by decide +kernel
  have hzero : ctx.contains .spanFn "0" = false := by decide +kernel
  have hanonymous : (ctx.construct .spanFn none t).result.map Kept.name = .ok "0" := by
    decide +kernel
  have hrefused : (ctx.construct .spanFn (some "0") t).result =
      .error (.duplicateName "ts_fn" "0") := by decide +kernel
  -- Everything has been computed, and nothing of it is to be computed again.
  clear_value ctx t
  obtain ⟨k, hk, hname⟩ := map_eq_ok.1 hanonymous
  have hnumbers : ctx.LeavesNumbers t := by
    refine ⟨fun x hx ↦ ?_, fun k hk x hx ↦ ?_, ?_⟩
    · rw [hreferences x hx]
      exact notMem_numbers (c := 'h') (by decide) rfl
    · rw [hentries k hk] at hx
      cases hx
    · rw [hfactories]
      exact nofun
  obtain ⟨-, haccepted, -⟩ := h.construct_free hmain t
  obtain ⟨herror, -⟩ := h.construct_free hzero t
  refine ⟨hnumbers, ?_, ?_⟩
  · rcases haccepted hnumbers k hk with hminted | ⟨l, hl, hlname, hterm⟩
    · exact absurd hminted.mem_numbers (notMem_numbers (c := 'm') (by decide) rfl)
    · exact ⟨k, l, hk, hname, hl, hlname, hterm⟩
  · rcases herror _ _ hrefused with hscope | ⟨-, -, hminted⟩
    · exact absurd hscope (Namespace.tag_ne_ruleType .spanFn)
    · exact hminted

/-- **Two definitions that are accepted anonymously, and not under a name that is free.** The
definition inside gets the number that is given to the new entry; or it gets the number that is
referred to, and which it does not get in the first case. -/
theorem construct_refuses_free :
    let call (name : String) (es : List (Entry Term)) : Term := .call name ⟨es, .parameters⟩ none
    let ctx := Context.empty 0 ⟨[], [.spanFn]⟩
    let t := call "G" [⟨.named "p", [], call "H" []⟩]
    let t' := call "G" [⟨.named "p", [], call "H" []⟩, ⟨.named "q", [], .reference "1"⟩]
    ctx.contains .spanFn "0" = false ∧
      (ctx.construct .spanFn none t).result.isOk = true ∧
      (ctx.construct .spanFn (some "0") t).result = .error (.duplicateName "ts_fn" "0") ∧
      (ctx.declare ⟨.typed "ts_fn" "0", [], t⟩).result = .error (.duplicateName "ts_fn" "0") ∧
      (ctx.construct .spanFn none t').result.isOk = true ∧
      (ctx.construct .spanFn (some "x") t').result = .error (.unresolved "1") := by
  decide +kernel

end Context

end TermRegistry
