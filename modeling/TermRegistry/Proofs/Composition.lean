import TermRegistry.Proofs.Dedup.Written
import TermRegistry.Proofs.Families
import TermRegistry.Proofs.Naming.Minting
import TermRegistry.Proofs.Reachable

/-!
# Composites in their namespaces

A composition `f o g` belongs in the function namespace that the namespaces of its operands say.
When a composite is built, the operands are inferred from its term first, and each of them once more
when it is built itself. Two things can come between the check and the component that is kept.

* The check knows a composition by its spelling: `f` and `g` by name, in this order, and no internal
  listing. The prototype takes any other spelling as well, and then there is no check.
* While `f` is built, anonymous entries are kept under numbers. If the number was declared as the
  name of a function before, in another namespace, a reference to it in `g` changes its meaning.

Apart from these two, every composite fits (`Context.composites_fit`).

**Design.** Fitting is carried along courses of construction. It speaks of an entry only if no
number in its second operand is the name of two functions. As a context grows, names are added and
never taken away, so this can only cease to be the case (`Context.Fixes.of_grows`); and fitting has
to be shown nowhere but at the point where the component was just built.
-/

namespace TermRegistry

/-! ### Terms -/

namespace Term

/-- Whether a call that bears the name of compositions denotes one. -/
def spellsComposition (t : Term) : Bool :=
  match t with
  | call name _ _ => name != compositeName || t.composition?.isSome
  | _ => true

mutual

/-- **Whether compositions are spelled as such**, in a definition and in the definitions among its
parameters. -/
def spellsCompositions : Term → Bool
  | call name ⟨entries, form⟩ internal =>
    (call name ⟨entries, form⟩ internal).spellsComposition && entriesSpellCompositions entries
  | _ => true

/-- Whether compositions are spelled as such in the values of some entries. -/
def entriesSpellCompositions : List (Entry Term) → Bool
  | [] => true
  | ⟨_, _, t⟩ :: es => t.spellsCompositions && entriesSpellCompositions es

end

end Term

namespace Context

variable {ctx ctx' : Context} {ns : Namespace} {name : String} {t : Term}

/-! ### Names that stay unshared -/

/-- **At most one function bears a name.** -/
def Unshared (ctx : Context) (name : String) : Prop :=
  ∀ ns ∈ Namespace.functions, ∀ ns' ∈ Namespace.functions,
    ctx.contains ns name = true → ctx.contains ns' name = true → ns = ns'

instance (ctx : Context) (name : String) : Decidable (ctx.Unshared name) :=
  inferInstanceAs (Decidable (∀ ns ∈ Namespace.functions, ∀ ns' ∈ Namespace.functions, _ → _ → _))

/-- **The numbers among the operands of a term are unshared**: anonymous entries do not change what
they refer to. -/
def Fixes (ctx : Context) (t : Term) : Prop := ∀ n : Nat, n.repr ∈ t.operands → ctx.Unshared n.repr

/-- Minting numbers does not change where a term belongs. -/
theorem Raised.inferFamily_eq (h : ctx.Raised ctx') (t : Term) :
    ctx'.inferFamily t = ctx.inferFamily t :=
  inferFamily_congr h.factories_eq fun name _ ns _ ↦ h.contains_eq ns name

/-- What is fixed after growth was so before. -/
theorem Fixes.of_grows {js : List (Namespace × String)} (h : ctx'.Fixes t)
    (hgrows : ctx.Grows js ctx') : ctx.Fixes t :=
  fun n hn ns hns ns' hns' hname hname' ↦
    h n hn ns hns ns' hns' (hgrows.contains hname) (hgrows.contains hname')

end Context

/-! ### What is kept on the way -/

namespace Builds

variable {ctx ctx' ctx'' : Context} {ns : Namespace} {t : Term}

/-- **Entries that are kept on the way are numbered.** -/
theorem contains_or_number {b : Built} (h : Builds ctx b ctx') (hb : b.OnTheWay) {name : String}
    (hname : ctx'.contains ns name = true) :
    ctx.contains ns name = true ∨ ∃ n : Nat, name = n.repr := by
  refine (h.contains_or_minted hb hname).imp id ?_
  rintro ⟨n, -, -, rfl⟩
  exact ⟨n, rfl⟩

/-- **What is built on the way does not change where a term belongs**, if the numbers among its
operands are unshared afterwards. -/
theorem inferFamily_eq {b : Built} (h : Builds ctx b ctx') (hb : b.OnTheWay)
    (hns : ctx.inferFamily t = .ok ns) (hfixes : ctx'.Fixes t) :
    ctx'.inferFamily t = .ok ns := by
  obtain ⟨js, hgrows⟩ := h.grows
  refine (Context.inferFamily_congr hgrows.factories_eq fun name hname ns' hns' ↦ ?_).trans hns
  rw [Bool.eq_iff_iff]
  refine ⟨fun hnew ↦ ?_, hgrows.contains⟩
  rcases h.contains_or_number hb hnew with hold | ⟨n, rfl⟩
  · exact hold
  -- The number named a function before, and that is the only one it names afterwards.
  · obtain ⟨fs, hfs, hold⟩ := Context.exists_contains_of_inferFamily hns hname
    rw [hfixes n hname ns' hns' fs hfs hnew (hgrows.contains hold)]
    exact hold

end Builds

/-! ### Factories -/

namespace Factories

/-- **Extensions of the standard factories**: anything but compositions may be registered, and
namespaces may be given a fallback. -/
inductive Extended : Factories → Prop
  | standard : Extended .standard
  | permissive {f : Factories} (h : Extended f) (family : Namespace) {name : String}
      (hname : name ≠ Term.compositeName) : Extended (f.register (.permissive family name))
  | ofSchema {f : Factories} (h : Extended f) (family : Namespace) {name : String}
      (hname : name ≠ Term.compositeName) (schema : List Parameter) :
      Extended (f.register (.ofSchema family name schema))
  | withFallback {f : Factories} (h : Extended f) (family : Namespace) :
      Extended (f.withFallback family)

variable {f : Factories} {ns : Namespace} {name : String} {p : Prototype}

/-- **Factories that know composites**: those of all function namespaces are registered, and nothing
else makes components by their name. -/
structure Composing (f : Factories) : Prop where
  known : ∀ ns ∈ Namespace.functions, .composite ns ∈ f.registered
  only : ∀ p ∈ f.registered, p.name = Term.compositeName ∨
    p.blueprint.genericName = Term.compositeName → p = .composite p.family

theorem Composing.register (h : f.Composing) (hname : p.name ≠ Term.compositeName)
    (hgeneric : p.blueprint.genericName = p.name) : (f.register p).Composing := by
  refine ⟨fun ns hns ↦ List.mem_append_left _ (h.known ns hns), fun q hq hor ↦ ?_⟩
  rcases List.mem_append.1 hq with hq | hq
  · exact h.only q hq hor
  · obtain rfl := List.mem_singleton.1 hq
    rw [hgeneric, or_self] at hor
    exact absurd hor hname

theorem Extended.composing (h : f.Extended) : f.Composing := by
  induction h with
  | standard =>
    refine ⟨fun ns hns ↦ List.mem_map_of_mem hns, fun p hp _ ↦ ?_⟩
    obtain ⟨ns, -, rfl⟩ := List.mem_map.1 hp
    rfl
  | permissive _ _ hname ih | ofSchema _ _ hname _ ih => exact ih.register hname rfl
  | withFallback _ family ih =>
    rw [Factories.withFallback]
    split
    · exact ih
    · exact ⟨ih.known, ih.only⟩

/-- In a function namespace the components of the composites' name are composites. -/
theorem Composing.eq_composite (h : f.Composing) (hns : ns.isFunction = true)
    (hp : p ∈ f.prototypes ns name) (hgeneric : p.blueprint.genericName = Term.compositeName) :
    name = Term.compositeName ∧ p = .composite ns := by
  rw [prototypes] at hp
  split at hp
  · next hnone =>
    split at hp
    · obtain rfl := List.mem_singleton.1 hp
      -- A fallback is not asked for this name: the composite of the namespace is registered.
      have hname : name = Term.compositeName := hgeneric
      have hmem : Prototype.composite ns ∈
          f.registered.filter fun p ↦ p.family == ns && p.name == name := by
        refine List.mem_filter.2 ⟨h.known ns (List.elem_iff.1 hns), ?_⟩
        rw [hname]
        simp [Prototype.composite, Prototype.ofSchema]
      rw [hnone] at hmem
      cases hmem
    · cases hp
  · obtain ⟨hmem, hplace⟩ := List.mem_filter.1 hp
    rw [Bool.and_eq_true, beq_iff_eq, beq_iff_eq] at hplace
    obtain ⟨rfl, rfl⟩ := hplace
    have heq := h.only p hmem (.inr hgeneric)
    exact ⟨congrArg Prototype.name heq, heq⟩

end Factories

/-! ### Composites that fit -/

/-- **A composite fits a function namespace** if this is where a composition of the functions that
its operands resolved to belongs. -/
def Component.FitsIn (c : Component) (ctx : Context) (ns : Namespace) : Prop :=
  ∀ f g lf lg, c.argument? "f" = some f → f.link? = some lf → c.argument? "g" = some g →
    g.link? = some lg → ctx.Fixes g.written → lf.ns.compose lg.ns = some ns

/-- Whether an object is no composite of a function namespace, or fits it. -/
def Content.FitsIn (x : Content) (ctx : Context) (ns : Namespace) : Prop :=
  ∀ c, x = .component c → c.genericName = Term.compositeName → ns.isFunction = true →
    c.FitsIn ctx ns

theorem Content.FitsIn.grows {x : Content} {ctx ctx' : Context} {ns : Namespace}
    {js : List (Namespace × String)} (h : x.FitsIn ctx ns) (hgrows : ctx.Grows js ctx') :
    x.FitsIn ctx' ns :=
  fun c hc hname hns f g lf lg hf hlf hg hlg hfixes ↦
    h c hc hname hns f g lf lg hf hlf hg hlg (hfixes.of_grows hgrows)

namespace Context

variable {ctx ctx' : Context} {ns : Namespace} {name : String} {x : Content}

/-- **Contexts of composites that fit**, with extensions of the standard factories. -/
structure Composed (ctx : Context) : Prop where
  factories : ctx.factories.Extended
  found : ∀ ns name k, ctx.find? ns name = some k → k.content.FitsIn ctx ns

namespace Composed

theorem empty (home : Nat) {factories : Factories} (h : factories.Extended) :
    (Context.empty home factories).Composed := by
  refine ⟨h, fun ns name k hk ↦ ?_⟩
  rw [find?_empty] at hk
  cases hk

theorem raised (h : ctx.Composed) (hr : ctx.Raised ctx') : ctx'.Composed := by
  refine ⟨hr.factories_eq ▸ h.factories, fun ns name k hk ↦ ?_⟩
  rw [hr.find?_eq] at hk
  exact (h.found ns name k hk).grows (.raised hr)

theorem keep (h : ctx.Composed) (hfree : ctx.contains ns name = false)
    (hsuits : x.suits ns = true) (hx : x.FitsIn ctx ns) : (ctx.keep ns name x).2.Composed := by
  have hgrows : ctx.Grows [(ns, name)] (ctx.keep ns name x).2 :=
    .kept (.refl ctx) hfree hsuits (.refl _)
  refine ⟨h.factories, fun ns' n k hk ↦ ?_⟩
  rw [find?_keep hfree] at hk
  split at hk
  · next hplace =>
    cases hk
    rw [hplace.1]
    exact hx.grows hgrows
  · exact (h.found ns' n k hk).grows hgrows

end Composed

end Context

namespace Component

variable {c c' : Component} {name : String} {a : Argument}

/-- The value that a parameter was set to. -/
theorem argument?_set (h : c.set name a = .ok c') (n : String) :
    c'.argument? n = if n = name then some a else c.argument? n := by
  obtain ⟨-, rfl⟩ := eq_of_set h
  exact lookup_put c.values name n a

/-- Setting a parameter leaves the kinds of all parameters. -/
theorem kind?_set (h : c.set name a = .ok c') (n : String) : c'.kind? n = c.kind? n := by
  obtain ⟨-, rfl⟩ := eq_of_set h
  rfl

end Component

/-! ### Courses of construction -/

namespace Builds

variable {ctx ctx' : Context} {ns : Namespace} {t : Term}

/-- A function is inferred and then found or built. -/
theorem of_anyFunction {r : Resolved} (h : Builds ctx (.argument t .anyFunction r) ctx') :
    ∃ link : Link, r = .entry link ∧ ctx.inferFamily t = .ok link.ns := by
  cases h with
  | function hns h =>
    refine ⟨_, rfl, hns.trans (congrArg _ ?_)⟩
    exact h.find?_eq.1.symm

/-- **One named parameter**: what it resolves to becomes the value of the parameter. -/
theorem of_parameter {generic : String} {names : List String} {index : Nat} {label : Label}
    {modifiers : List String} {es : List (Entry Term)} {c c' : Component} {name : String}
    {kind : ParameterKind}
    (h : Builds ctx (.parameters generic names index (⟨label, modifiers, t⟩ :: es) c c') ctx')
    (hname : label.name? = some name) (hkind : c.kind? name = some kind) :
    ∃ ctx₁ r c₁, Builds ctx (.argument t kind r) ctx₁ ∧ c.set name ⟨t, r⟩ = .ok c₁ ∧
      Builds ctx₁ (.parameters generic names (index + 1) es c₁ c') ctx' := by
  cases h with
  | @parameter _ ctx₁ _ _ _ _ _ _ _ c₁ _ n k r hname' hkind' hr hset h =>
    rw [Build.parameterName, hname] at hname'
    cases hname'
    rw [Build.parameterKind, hkind] at hkind'
    cases hkind'
    exact ⟨ctx₁, r, c₁, hr, hset, h⟩

/-- Setting parameters leaves the generic name. -/
theorem genericName_eq {generic : String} {names : List String} {index : Nat}
    {es : List (Entry Term)} {c c' : Component}
    (h : Builds ctx (.parameters generic names index es c c') ctx') :
    c'.genericName = c.genericName := by
  induction es generalizing ctx c index with
  | nil =>
    cases h
    rfl
  | cons e es ih =>
    cases h with
    | parameter _ _ _ hset h => rw [ih h, (Component.eq_of_set hset).2]

/-- **What a composition is built to fits** the namespace that was inferred for it. -/
theorem fitsIn_of_composition {f g : Term} {generic : String} {names : List String} {l₁ l₂ : Label}
    {ms₁ ms₂ : List String} {c : Component} (ht : t.composition? = some (f, g))
    (hns : ctx.inferFamily t = .ok ns)
    (h : Builds ctx (.parameters generic names 0 [⟨l₁, ms₁, f⟩, ⟨l₂, ms₂, g⟩]
      (Prototype.composite ns).instantiate c) ctx')
    (h₁ : l₁.name? = some "f") (h₂ : l₂.name? = some "g") : c.FitsIn ctx' ns := by
  obtain ⟨fs, gs, hfs, hgs, hcompose⟩ := (Context.inferFamily_composition ht).1 hns
  have hkind : (Prototype.composite ns).instantiate.kind? "f" = some .anyFunction := rfl
  obtain ⟨ctx₁, r₁, c₁, hr₁, hset₁, h⟩ := h.of_parameter h₁ hkind
  have hkind : c₁.kind? "g" = some .anyFunction := Component.kind?_set hset₁ "g"
  obtain ⟨ctx₂, r₂, c₂, hr₂, hset₂, h⟩ := h.of_parameter h₂ hkind
  cases h
  obtain ⟨lf, rfl, hlf⟩ := hr₁.of_anyFunction
  obtain ⟨lg, rfl, hlg⟩ := hr₂.of_anyFunction
  obtain ⟨js, hgrows⟩ := hr₂.grows
  intro a b la lb ha hla hb hlb hfixes
  rw [Component.argument?_set hset₂, if_neg (by decide), Component.argument?_set hset₁,
    if_pos rfl] at ha
  rw [Component.argument?_set hset₂, if_pos rfl] at hb
  cases ha
  cases hla
  cases hb
  cases hlb
  -- The first operand is inferred as it was for the check, and the second one is not changed.
  obtain rfl : fs = lf.ns := Except.ok.inj (hfs.symm.trans hlf)
  have hgs' := hr₁.inferFamily_eq trivial hgs (hfixes.of_grows hgrows)
  obtain rfl : gs = lg.ns := Except.ok.inj (hgs'.symm.trans hlg)
  exact hcompose

/-- **A composition is built only where it belongs.** -/
theorem inferFamily_of_content {x : Content} (h : Builds ctx (.content t ns x) ctx')
    (hns : ns.isFunction = true) (ht : t.composition?.isSome = true) :
    ctx.inferFamily t = .ok ns := by
  cases h with
  | array | value | ruleSet => cases hns
  | component _ hfamily => exact Context.inferFamily_of_checkFamily hfamily hns ht

/-- A composition is kept as a new entry only where it belongs. -/
theorem inferFamily_of_new {name? : Option String} {k : Kept}
    (h : Builds ctx (.new ns name? t k) ctx') (hns : ns.isFunction = true)
    (ht : t.composition?.isSome = true) : ctx.inferFamily t = .ok ns := by
  cases h with
  | named _ hx _ => exact hx.inferFamily_of_content hns ht
  | numbered hx _ =>
    rw [← (Context.Raised.mint ctx ns).inferFamily_eq]
    exact hx.inferFamily_of_content hns ht

end Builds

/-- Whether compositions are spelled as such in what a construction starts from. -/
def Built.Spelled : Built → Prop
  | .new _ _ t _ | .entry t _ _ | .content t _ _ | .argument t _ _ => t.spellsCompositions = true
  | .parameters _ _ _ es _ _ => Term.entriesSpellCompositions es = true

/-- Whether an object that a construction yields fits its namespace. -/
def Built.Fits (ctx : Context) : Built → Prop
  | .content _ ns x => x.FitsIn ctx ns
  | _ => True

/-- **Courses of construction keep composites fitting** if compositions are spelled as such. -/
theorem Builds.composed {ctx ctx' : Context} {b : Built} (h : Builds ctx b ctx')
    (hctx : ctx.Composed) (hb : b.Spelled) : ctx'.Composed ∧ b.Fits ctx' := by
  induction h with
  | named _ hx hfree ih =>
    obtain ⟨hctx', hfits⟩ := ih hctx hb
    exact ⟨hctx'.keep hfree hx.suits hfits, trivial⟩
  | numbered hx hfree ih | made _ _ hx _ hfree ih =>
    obtain ⟨hctx', hfits⟩ := ih (hctx.raised (.mint _ _)) hb
    exact ⟨hctx'.keep hfree hx.suits hfits, trivial⟩
  | referred | matched => exact ⟨hctx, trivial⟩
  | matchedLater _ _ _ _ ih => exact ⟨(ih (hctx.raised (.mint _ _)) hb).1, trivial⟩
  | array | value | ruleSet => exact ⟨hctx, nofun⟩
  | @component ctx ctx' ctx'' ns name parameters internal p c hns hfamily hp hraised h ih =>
    obtain ⟨es, form⟩ := parameters
    obtain ⟨hspelled, hes⟩ := Bool.and_eq_true_iff.1 hb
    refine ⟨(ih (hctx.raised hraised) hes).1, ?_⟩
    rintro _ ⟨rfl⟩ hgeneric hfunction
    rw [Component.genericName_withInternal, h.genericName_eq] at hgeneric
    obtain ⟨rfl, rfl⟩ := hctx.factories.composing.eq_composite hfunction hp hgeneric
    -- By its spelling the definition is a composition, so it was checked.
    have hcomposition : (Term.call Term.compositeName ⟨es, form⟩ internal).composition?.isSome =
        true := by
      simpa [Term.spellsComposition] using hspelled
    have hinferred := Context.inferFamily_of_checkFamily hfamily hfunction hcomposition
    rw [← hraised.inferFamily_eq] at hinferred
    obtain ⟨⟨f, g⟩, hfg⟩ := Option.isSome_iff_exists.1 hcomposition
    obtain ⟨l₁, ms₁, l₂, ms₂, _, hcall, h₁, h₂⟩ := Term.eq_call_of_composition? hfg
    cases hcall
    exact h.fitsIn_of_composition hfg hinferred h₁ h₂
  | noParameters => exact ⟨hctx, trivial⟩
  | @parameter _ _ _ _ _ _ e _ _ _ _ _ _ _ _ _ _ _ _ ihr ih =>
    obtain ⟨he, hes⟩ := Bool.and_eq_true_iff.1 hb
    exact ih (ihr hctx he).1 hes
  | text | texts | settled => exact ⟨hctx, trivial⟩
  | entry _ ih | function _ _ ih | definition _ _ ih => exact ⟨(ih hctx hb).1, trivial⟩

namespace Context

/-- **Building from definitions that spell compositions as such keeps composites fitting.** -/
theorem preserved_composed : Preserved (·.spellsCompositions = true) Composed where
  raised h hr := h.raised hr
  new _ h ht hk := (hk.composed h ht).1
  entry _ h ht hk := (hk.composed h ht).1

/-- **Composites fit their namespaces.** Take a run from an empty context with an extension of the
standard factories, in which every composition is spelled as such. A composite that is kept in a
function namespace is kept where a composition of what its operands resolved to belongs, unless a
number in its second operand has come to name two functions. And a composition is never constructed
in a function namespace that it does not belong in. -/
theorem composites_fit (home : Nat) (factories : Factories) (hf : factories.Extended)
    (ops : List Operation) (hops : ∀ op ∈ ops, op.From (·.spellsCompositions = true)) :
    (∀ k ∈ ((empty home factories).run ops).entries, ∀ c f g lf lg,
      k.content = .component c → c.genericName = Term.compositeName → k.ns.isFunction = true →
        c.argument? "f" = some f → f.link? = some lf →
          c.argument? "g" = some g → g.link? = some lg →
            ((empty home factories).run ops).Fixes g.written →
              lf.ns.compose lg.ns = some k.ns) ∧
    ∀ ns name? t, ns.isFunction = true → t.composition?.isSome = true →
      (((empty home factories).run ops).construct ns name? t).result.isOk = true →
        ((empty home factories).run ops).inferFamily t = .ok ns := by
  have hempty := coherent_empty home factories
  obtain ⟨js, hgrows⟩ := run_grows ops hempty
  have hcomposed := preserved_composed.runFrom hempty (.empty home hf) hops
  refine ⟨fun k hk c f g lf lg hc hname hns ↦ ?_, fun ns name? t hns ht hok ↦ ?_⟩
  · exact hcomposed.found k.ns k.name k (find?_of_mem_entries hk) c hc hname hns f g lf lg
  · obtain ⟨k, hk⟩ := exists_eq_ok hok
    have hnew := perform_ok (Build.meets_construct ns name? t) (hgrows.coherent hempty) hk
    exact hnew.inferFamily_of_new hns ht

/-- The first operand is built while the second one is the name of a function. -/
theorem composites_fit_nested :
    let first : Term := .call "G" {} none
    let second : Term := .reference "h"
    let lf : Link := ⟨.spanFn, "0", ⟨0, 1⟩⟩
    let lg : Link := ⟨.spanFn, "h", ⟨0, 0⟩⟩
    let c : Component := { (Prototype.composite .spanFn).instantiate with
      values := [("f", ⟨first, .entry lf⟩), ("g", ⟨second, .entry lg⟩)] }
    let ctx := (empty 0 (Factories.standard.withFallback .spanFn)).run
      [.construct .spanFn (some "h") (.call "H" {} none),
        .construct .spanFn (some "c") (.composite first second)]
    ⟨.spanFn, "c", ⟨0, 2⟩, .component c⟩ ∈ ctx.entries ∧
      lf.ns.compose lg.ns = some .spanFn ∧
        (ctx.construct .strFn none (.composite first second)).result.isOk = false := by
  intro first second lf lg c ctx
  obtain ⟨hfits, hrejected⟩ := composites_fit 0 (Factories.standard.withFallback .spanFn)
    (.withFallback .standard .spanFn) [.construct .spanFn (some "h") (.call "H" {} none),
      .construct .spanFn (some "c") (.composite first second)]
    (List.forall_mem_cons.2 ⟨rfl, List.forall_mem_singleton.2 rfl⟩)
  have hk : (⟨.spanFn, "c", ⟨0, 2⟩, .component c⟩ : Kept) ∈ ctx.entries := by decide +kernel
  have hfixes : ctx.Fixes second := by
    intro n hn
    rw [List.mem_singleton.1 hn]
    decide +kernel
  have hbelongs : ctx.inferFamily (.composite first second) = .ok .spanFn := by decide +kernel
  refine ⟨hk, hfits _ hk c _ _ lf lg rfl rfl rfl rfl rfl rfl rfl hfixes, ?_⟩
  refine Bool.eq_false_iff.2 fun hok ↦ ?_
  have hwrong := hrejected .strFn none (.composite first second) rfl rfl hok
  cases hbelongs.symm.trans hwrong

/-- **Not every composite fits**: here the operands are spelled in the other order, so that nothing
is checked, and there a number is minted for a definition inside of the first operand that names
another function already. -/
theorem composites_misfit :
    (let lh : Link := ⟨.spanFn, "h", ⟨0, 0⟩⟩
     let h : Argument := ⟨.reference "h", .entry lh⟩
     let c : Component := { (Prototype.composite .strFn).instantiate with
       values := [("g", h), ("f", h)] }
     let ctx := (empty 0 (Factories.standard.withFallback .spanFn)).run
       [.construct .spanFn (some "h") (.call "H" {} none),
         .construct .strFn (some "c") (.call Term.compositeName
           ⟨[⟨.named "g", [], .reference "h"⟩, ⟨.named "f", [], .reference "h"⟩], .parameters⟩
           none)]
     ⟨.strFn, "c", ⟨0, 1⟩, .component c⟩ ∈ ctx.entries ∧ lh.ns.compose lh.ns ≠ some .strFn) ∧
    (let first : Term := .call "S" ⟨[⟨.named "p", [], .call "T" {} none⟩], .parameters⟩ none
     let lf : Link := ⟨.strFn, "0", ⟨0, 2⟩⟩
     let lg : Link := ⟨.spanFn, "1", ⟨0, 1⟩⟩
     let c : Component := { (Prototype.composite .strFn).instantiate with
       values := [("f", ⟨first, .entry lf⟩), ("g", ⟨.reference "1", .entry lg⟩)] }
     let ctx := (empty 0 ((Factories.standard.register (.permissive .spanFn "T")).register
         (.permissive .strFn "S"))).run
       [.construct .strFn (some "1") (.call "S" {} none),
         .construct .strFn (some "c") (.composite first (.reference "1"))]
     ⟨.strFn, "c", ⟨0, 3⟩, .component c⟩ ∈ ctx.entries ∧
       lf.ns.compose lg.ns ≠ some .strFn) := by
  refine ⟨⟨by decide +kernel, by decide⟩, ⟨by decide +kernel, by decide⟩⟩

end Context

end TermRegistry
