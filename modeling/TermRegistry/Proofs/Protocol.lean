import Mathlib.Data.List.Induction
import Mathlib.Data.List.Nodup
import TermRegistry.Proofs.Composition

/-!
# The parameters of a component

A component is fresh at first, and then calls set its parameters and its internal listing. What it
answers afterwards depends on the accepted calls alone: `Component.recorded_run` relates a component
to the calls that were made on it, one step at a time, and `Component.keepsProtocol_run` says from
this what its parameters and its term are after any sequence of calls.

Whether a call is accepted does not depend on the calls before it: the parameter has to be declared,
and its kind to fit the value.
-/

namespace TermRegistry

/-! ### What a parameter takes -/

/-- **The kind of a parameter fits a resolved value.** -/
inductive ParameterKind.Fits : ParameterKind → Resolved → Prop
  | text (s : String) : Fits .text (.literal (.text s))
  | array (ts : List Term) : Fits .array (.literal (.array ts))
  | entry (link : Link) : Fits (.entry link.ns) (.entry link)
  | anyFunction {link : Link} (h : link.ns ∈ Namespace.functions) :
      Fits .anyFunction (.entry link)
  | anything (r : Resolved) : Fits .anything r

/-- A parameter takes the values that its kind fits. -/
theorem ParameterKind.fits_iff {kind : ParameterKind} {r : Resolved} :
    kind.Fits r ↔ kind.takes r = true := by
  constructor
  · intro h
    cases h with
    | entry link => exact beq_self_eq_true link.ns
    | anyFunction h => exact List.contains_iff_mem.2 h
    | _ => rfl
  · intro h
    unfold takes at h
    split at h
    · next t =>
      cases t with
      | text s => exact .text s
      | _ => cases h
    · exact .array _
    · next ns link =>
      rw [← beq_iff_eq.1 h]
      exact .entry link
    · exact .anyFunction (List.contains_iff_mem.1 h)
    · exact .anything _
    · cases h

instance (kind : ParameterKind) (r : Resolved) : Decidable (kind.Fits r) :=
  decidable_of_iff _ ParameterKind.fits_iff.symm

namespace Component

/-- **A parameter is declared** with a kind: by the schema, or by having none. -/
inductive Declares : Option (List Parameter) → String → ParameterKind → Prop
  | permissive (name : String) : Declares none name .anything
  | schema {schema : List Parameter} {p : Parameter} (h : p ∈ schema) :
      Declares (some schema) p.name p.kind

/-- The schema, if there is one, declares no name twice. -/
def Distinct (schema? : Option (List Parameter)) : Prop :=
  ∀ schema, schema? = some schema → (schema.map (·.name)).Nodup

variable {c c' : Component} {name : String} {a : Argument}

/-- In a schema of distinct names the declaration of a name is the only one. -/
theorem declared?_eq_some {schema : List Parameter} {p : Parameter}
    (hschema : c.schema? = some schema) (hdistinct : Distinct c.schema?) :
    c.declared? name = some p ↔ p ∈ schema ∧ p.name = name := by
  rw [declared?, hschema, Option.bind_some]
  constructor
  · intro h
    have hname := List.find?_some h
    exact ⟨List.mem_of_find?_eq_some h, beq_iff_eq.1 hname⟩
  · rintro ⟨hp, rfl⟩
    cases hfind : schema.find? (·.name == p.name) with
    | none => exact absurd (beq_self_eq_true p.name) (List.find?_eq_none.1 hfind p hp)
    | some q =>
      have hq := List.mem_of_find?_eq_some hfind
      have hname := List.find?_some hfind
      rw [List.inj_on_of_nodup_map (hdistinct schema hschema) hq hp (beq_iff_eq.1 hname)]

/-- A component has the parameters that are declared. -/
theorem kind?_eq_some {kind : ParameterKind} (hdistinct : Distinct c.schema?) :
    c.kind? name = some kind ↔ Declares c.schema? name kind := by
  rw [kind?]
  cases hschema : c.schema? with
  | none =>
    refine ⟨fun h ↦ Option.some.inj h ▸ .permissive name, ?_⟩
    rintro ⟨⟩
    rfl
  | some schema =>
    rw [Option.map_eq_some_iff]
    constructor
    · rintro ⟨p, hp, rfl⟩
      obtain ⟨hmem, rfl⟩ := (declared?_eq_some hschema hdistinct).1 hp
      exact .schema hmem
    · rintro (_ | ⟨hp⟩)
      exact ⟨_, (declared?_eq_some hschema hdistinct).2 ⟨hp, rfl⟩, rfl⟩

/-! ### Calls -/

/-- The calls that change a component. -/
inductive Call
  | set (name : String) (a : Argument)
  | setInternal (internal : List (Entry Term))

/-- What a call makes of a component, if it does not fail. -/
def call (c : Component) : Call → Except Error Component
  | .set name a => c.set name a
  | .setInternal internal => .ok (c.setInternal internal)

/-- The component after a call, which stays as it is if the call fails. -/
def after (c : Component) (call : Call) : Component := (c.call call).toOption.getD c

/-- **The component after some calls**, one after the other. -/
def run (c : Component) (calls : List Call) : Component := calls.foldl after c

theorem run_append (c : Component) (calls : List Call) (call : Call) :
    c.run (calls ++ [call]) = (c.run calls).after call := by
  rw [run, List.foldl_append]
  rfl

namespace Call

/-- **Accepted calls**: the parameter is declared, and its kind fits the value. Internal listings
are always accepted. -/
def IsAccepted (schema? : Option (List Parameter)) : Call → Prop
  | set name a => ∃ kind, Declares schema? name kind ∧ kind.Fits a.resolved
  | setInternal _ => True

/-- In a schema some parameter of the name has to fit the value. -/
theorem isAccepted_schema {schema : List Parameter} :
    (set name a).IsAccepted (some schema) ↔
      ∃ p ∈ schema, p.name = name ∧ p.kind.Fits a.resolved := by
  constructor
  · rintro ⟨kind, hdeclares, hfits⟩
    cases hdeclares with
    | schema hp => exact ⟨_, hp, rfl, hfits⟩
  · rintro ⟨p, hp, rfl, hfits⟩
    exact ⟨p.kind, .schema hp, hfits⟩

instance (schema? : Option (List Parameter)) : DecidablePred (IsAccepted schema?) := fun call ↦
  match call, schema? with
  | set name a, none => .isTrue ⟨.anything, .permissive name, .anything a.resolved⟩
  | set _ _, some _ => decidable_of_iff _ isAccepted_schema.symm
  | setInternal _, _ => .isTrue trivial

end Call

/-- **When setting a parameter succeeds**, and what it changes. -/
theorem set_eq_ok (hdistinct : Distinct c.schema?) :
    c.set name a = .ok c' ↔
      (Call.set name a).IsAccepted c.schema? ∧ c' = { c with values := put c.values name a } := by
  constructor
  · intro h
    refine ⟨?_, (eq_of_set h).2⟩
    rw [set] at h
    split at h
    · cases h
    · next kind hkind =>
      split at h
      · next htakes =>
        exact ⟨kind, (kind?_eq_some hdistinct).1 hkind, ParameterKind.fits_iff.2 htakes⟩
      · cases h
  · rintro ⟨⟨kind, hdeclares, hfits⟩, rfl⟩
    rw [set, (kind?_eq_some hdistinct).2 hdeclares]
    exact if_pos (ParameterKind.fits_iff.1 hfits)

/-- **When setting a parameter fails, and how**: it is not declared, or its kind does not fit. -/
theorem set_eq_error (hdistinct : Distinct c.schema?) {error : Error} :
    c.set name a = .error error ↔
      ((∀ kind, ¬Declares c.schema? name kind) ∧
        error = .construction (.noParameter c.genericName name)) ∨
      (∃ kind, Declares c.schema? name kind ∧ ¬kind.Fits a.resolved) ∧
        error = .construction (.rejected c.genericName a.written name) := by
  constructor
  · intro h
    rw [set] at h
    split at h
    · next hkind =>
      refine .inl ⟨fun kind hdeclares ↦ ?_, (Except.error.inj h).symm⟩
      rw [(kind?_eq_some hdistinct).2 hdeclares] at hkind
      cases hkind
    · next kind hkind =>
      split at h
      · cases h
      · next htakes =>
        exact .inr ⟨⟨kind, (kind?_eq_some hdistinct).1 hkind, mt ParameterKind.fits_iff.1 htakes⟩,
          (Except.error.inj h).symm⟩
  · rintro (⟨hnone, rfl⟩ | ⟨⟨kind, hdeclares, hfits⟩, rfl⟩)
    · have hkind : c.kind? name = none :=
        Option.eq_none_iff_forall_ne_some.2 fun kind h ↦
          hnone kind ((kind?_eq_some hdistinct).1 h)
      rw [set, hkind]
    · rw [set, (kind?_eq_some hdistinct).2 hdeclares]
      exact if_neg (mt ParameterKind.fits_iff.2 hfits)

/-- A failed call changes nothing. -/
theorem after_of_error {call : Call} {error : Error} (h : c.call call = .error error) :
    c.after call = c := by
  rw [after, h]
  rfl

/-! ### What was called -/

/-- The argument of the last call that set a parameter. -/
def lastArgument? (calls : List Call) (name : String) : Option Argument :=
  calls.reverse.findSome? fun
    | .set n a => if n = name then some a else none
    | .setInternal _ => none

/-- The internal listing of the last call that set it. -/
def lastInternal? (calls : List Call) : Option (List (Entry Term)) :=
  calls.reverse.findSome? fun
    | .set _ _ => none
    | .setInternal internal => some internal

/-- The names of the parameters that were set, in the order of the calls. -/
def namesSet (calls : List Call) : List String :=
  calls.filterMap fun
    | .set name _ => some name
    | .setInternal _ => none

theorem lastArgument?_concat_set (calls : List Call) (n : String) (a : Argument) (name : String) :
    lastArgument? (calls ++ [.set n a]) name =
      if n = name then some a else lastArgument? calls name := by
  rw [lastArgument?, List.reverse_concat, List.findSome?_cons]
  by_cases hn : n = name
  · simp only [hn, if_true]
  · simp only [hn, if_false]
    rfl

theorem lastArgument?_concat_setInternal (calls : List Call) (internal : List (Entry Term))
    (name : String) :
    lastArgument? (calls ++ [.setInternal internal]) name = lastArgument? calls name := by
  rw [lastArgument?, List.reverse_concat]
  rfl

theorem lastInternal?_concat_set (calls : List Call) (name : String) (a : Argument) :
    lastInternal? (calls ++ [.set name a]) = lastInternal? calls := by
  rw [lastInternal?, List.reverse_concat]
  rfl

theorem lastInternal?_concat_setInternal (calls : List Call) (internal : List (Entry Term)) :
    lastInternal? (calls ++ [.setInternal internal]) = some internal := by
  rw [lastInternal?, List.reverse_concat]
  rfl

theorem namesSet_concat_set (calls : List Call) (name : String) (a : Argument) :
    namesSet (calls ++ [.set name a]) = namesSet calls ++ [name] :=
  List.filterMap_append

theorem namesSet_concat_setInternal (calls : List Call) (internal : List (Entry Term)) :
    namesSet (calls ++ [.setInternal internal]) = namesSet calls :=
  List.filterMap_append.trans (List.append_nil _)

/-- The accepted ones among some calls. -/
def accepted (schema? : Option (List Parameter)) (calls : List Call) : List Call :=
  calls.filter fun call ↦ decide (call.IsAccepted schema?)

theorem accepted_concat {schema? : Option (List Parameter)} {call : Call} (calls : List Call)
    (h : call.IsAccepted schema?) :
    accepted schema? (calls ++ [call]) = accepted schema? calls ++ [call] := by
  simp [accepted, h]

theorem accepted_concat_of_not {schema? : Option (List Parameter)} {call : Call}
    (calls : List Call) (h : ¬call.IsAccepted schema?) :
    accepted schema? (calls ++ [call]) = accepted schema? calls := by
  simp [accepted, h]

/-- **What a component has on record** of the calls that were made on a fresh one: the blueprint it
was made from, and of the accepted calls the last argument of each parameter, the names in the order
in which they first came up, and the last internal listing. -/
structure Recorded (b : Blueprint) (calls : List Call) (c : Component) : Prop where
  genericName_eq : c.genericName = b.genericName
  schema?_eq : c.schema? = b.schema?
  argument?_eq : ∀ name, c.argument? name = lastArgument? (accepted b.schema? calls) name
  names_eq : c.values.map Prod.fst = (namesSet (accepted b.schema? calls)).eraseDups
  internal?_eq : c.internal? = lastInternal? (accepted b.schema? calls)

theorem nodup_eraseDups (names : List String) : names.eraseDups.Nodup := by
  induction names using List.reverseRecOn with
  | nil => exact List.nodup_nil
  | append_singleton names name ih =>
    rw [eraseDups_concat]
    split
    · exact ih
    · next h =>
      rw [← List.concat_eq_append]
      exact ih.concat (by rwa [List.mem_eraseDups])

/-! ### One call, and all of them -/

variable {b : Blueprint} {calls : List Call}

/-- A fresh component has nothing on record. -/
theorem recorded_fresh (p : Prototype) : Recorded p.blueprint [] p.instantiate :=
  ⟨rfl, rfl, fun _ ↦ rfl, rfl, rfl⟩

/-- The names of the values that are kept when one is put among them. -/
theorem map_fst_put (values : List (String × Argument)) (name : String) (a : Argument) :
    (put values name a).map Prod.fst =
      if name ∈ values.map Prod.fst then values.map Prod.fst
      else values.map Prod.fst ++ [name] := by
  rw [put]
  by_cases hname : name ∈ values.map Prod.fst
  · rw [if_pos (lookup_isSome_iff_mem.2 hname), if_pos hname, List.map_map]
    refine List.map_congr_left fun v _ ↦ ?_
    by_cases hv : v.1 = name
    · rw [Function.comp_apply, if_pos hv, hv]
    · rw [Function.comp_apply, if_neg hv]
  · rw [if_neg (mt lookup_isSome_iff_mem.1 hname), if_neg hname, List.map_append]
    rfl

/-- **One call**: it goes on record if it is accepted, and otherwise leaves no trace. -/
theorem Recorded.after (h : Recorded b calls c) (hdistinct : Distinct b.schema?) (call : Call) :
    Recorded b (calls ++ [call]) (c.after call) := by
  obtain ⟨hgeneric, hschema, hargument, hnames, hinternal⟩ := h
  have hdistinct' : Distinct c.schema? := hschema ▸ hdistinct
  by_cases haccepted : call.IsAccepted b.schema?
  · cases call with
    | set name a =>
      have hset := (set_eq_ok hdistinct').2 ⟨hschema ▸ haccepted, rfl⟩
      have hafter : c.after (.set name a) = { c with values := put c.values name a } := by
        rw [Component.after, call, hset]
        rfl
      rw [hafter]
      refine ⟨hgeneric, hschema, fun n ↦ ?_, ?_, ?_⟩
      · rw [accepted_concat calls haccepted, lastArgument?_concat_set, ← hargument,
          argument?_set hset]
        exact if_congr eq_comm rfl rfl
      · rw [accepted_concat calls haccepted, namesSet_concat_set, eraseDups_concat, map_fst_put,
          hnames]
        exact if_congr List.mem_eraseDups rfl rfl
      · rw [accepted_concat calls haccepted, lastInternal?_concat_set]
        exact hinternal
    | setInternal internal =>
      refine ⟨hgeneric, hschema, fun n ↦ ?_, ?_, ?_⟩
      · rw [accepted_concat calls haccepted, lastArgument?_concat_setInternal]
        exact hargument n
      · rw [accepted_concat calls haccepted, namesSet_concat_setInternal]
        exact hnames
      · rw [accepted_concat calls haccepted, lastInternal?_concat_setInternal]
        rfl
  · have hafter : c.after call = c := by
      cases call with
      | set name a =>
        cases hset : c.set name a with
        | ok c' => exact absurd (hschema ▸ ((set_eq_ok hdistinct').1 hset).1) haccepted
        | error error => exact after_of_error hset
      | setInternal internal => exact absurd trivial haccepted
    rw [hafter]
    refine ⟨hgeneric, hschema, ?_, ?_, ?_⟩ <;> rwa [accepted_concat_of_not calls haccepted]

/-- **All calls**, one after the other. -/
theorem recorded_run (p : Prototype) (hdistinct : Distinct p.blueprint.schema?)
    (calls : List Call) : Recorded p.blueprint calls (p.instantiate.run calls) := by
  induction calls using List.reverseRecOn with
  | nil => exact recorded_fresh p
  | append_singleton calls call ih =>
    rw [run_append]
    exact ih.after hdistinct call

/-! ### What is answered -/

/-- The parameters of a schema that have a default. -/
def HasDefault (schema? : Option (List Parameter)) (name : String) (t : Term) : Prop :=
  ∃ schema p, schema? = some schema ∧ p ∈ schema ∧ p.name = name ∧ p.default? = some t

/-- **The parameters of a component as they are listed** in its term: named, no name twice, in the
order of the component, and just those that have a value. -/
structure Lists (c : Component) (es : List (Entry Term)) : Prop where
  named : ∀ e ∈ es, ∃ name t, e = ⟨.named name, [], t⟩
  distinct : (es.filterMap (·.name?)).Nodup
  ordered : (es.filterMap (·.name?)).Sublist c.names
  mem_iff : ∀ name t, ⟨.named name, [], t⟩ ∈ es ↔ c.get? name = some t

/-- **A component keeps to the protocol** after some calls on a fresh one of a blueprint. -/
structure KeepsProtocol (b : Blueprint) (calls : List Call) (c : Component) : Prop where
  /-- A parameter is refused just when it is not declared or its kind does not fit the value. -/
  set_eq_error : ∀ name a error, c.call (.set name a) = .error error ↔
    ((∀ kind, ¬Declares b.schema? name kind) ∧
      error = .construction (.noParameter b.genericName name)) ∨
    (∃ kind, Declares b.schema? name kind ∧ ¬kind.Fits a.resolved) ∧
      error = .construction (.rejected b.genericName a.written name)
  /-- Internal listings are never refused. -/
  setInternal_eq_ok : ∀ internal, ∃ c', c.call (.setInternal internal) = .ok c'
  /-- A call that fails changes nothing. -/
  unchanged : ∀ call error, c.call call = .error error → c.after call = c
  /-- A parameter has the term that was written in the last accepted call, or else its default. -/
  get?_eq_some : ∀ name t, c.get? name = some t ↔
    (∃ a, lastArgument? (accepted b.schema? calls) name = some a ∧ a.written = t) ∨
    lastArgument? (accepted b.schema? calls) name = none ∧ HasDefault b.schema? name t
  /-- The names are those of the schema, or else those of the accepted calls as they came up. -/
  names_eq : c.names =
    match b.schema? with
    | some schema => schema.map (·.name)
    | none => (namesSet (accepted b.schema? calls)).eraseDups
  /-- The term is a call by the generic name, with the parameters and the last internal listing. -/
  toTerm_eq : ∃ es, Lists c es ∧
    c.toTerm = .call b.genericName ⟨es, .parameters⟩ (lastInternal? (accepted b.schema? calls))

/-- The last argument of a parameter is that of some call. -/
theorem mem_of_lastArgument? (h : lastArgument? calls name = some a) : .set name a ∈ calls := by
  obtain ⟨call, hmem, hcall⟩ := List.exists_of_findSome?_eq_some h
  cases call with
  | set n a' =>
    obtain ⟨rfl, ha⟩ := Option.ite_none_right_eq_some.1 hcall
    cases ha
    exact List.mem_reverse.1 hmem
  | setInternal internal => cases hcall

namespace Recorded

theorem names_eq' (h : Recorded b calls c) : c.names =
    match b.schema? with
    | some schema => schema.map (·.name)
    | none => (namesSet (accepted b.schema? calls)).eraseDups := by
  have hnames := h.names_eq
  rw [names, h.schema?_eq]
  generalize b.schema? = schema? at hnames ⊢
  cases schema? with
  | none => exact hnames
  | some schema => rfl

/-- No name comes twice. -/
theorem nodup_names (h : Recorded b calls c) (hdistinct : Distinct b.schema?) : c.names.Nodup := by
  rw [h.names_eq']
  cases hschema : b.schema? with
  | none => exact nodup_eraseDups _
  | some schema => exact hdistinct schema hschema

/-- A default is declared in the schema. -/
theorem default?_eq_some (h : Recorded b calls c) (hdistinct : Distinct b.schema?) {t : Term} :
    (c.declared? name).bind (·.default?) = some t ↔ HasDefault b.schema? name t := by
  rw [Option.bind_eq_some_iff]
  constructor
  · rintro ⟨p, hp, ht⟩
    cases hschema : c.schema? with
    | none =>
      rw [declared?, hschema] at hp
      cases hp
    | some schema =>
      obtain ⟨hmem, hname⟩ := (declared?_eq_some hschema (h.schema?_eq ▸ hdistinct)).1 hp
      exact ⟨schema, p, h.schema?_eq ▸ hschema, hmem, hname, ht⟩
  · rintro ⟨schema, p, hschema, hmem, hname, ht⟩
    exact ⟨p, (declared?_eq_some (h.schema?_eq.trans hschema) (h.schema?_eq ▸ hdistinct)).2
      ⟨hmem, hname⟩, ht⟩

theorem get?_eq_some (h : Recorded b calls c) (hdistinct : Distinct b.schema?) {t : Term} :
    c.get? name = some t ↔
      (∃ a, lastArgument? (accepted b.schema? calls) name = some a ∧ a.written = t) ∨
      lastArgument? (accepted b.schema? calls) name = none ∧ HasDefault b.schema? name t := by
  rw [get?, h.argument?_eq]
  cases lastArgument? (accepted b.schema? calls) name with
  | none =>
    rw [h.default?_eq_some hdistinct]
    refine ⟨fun hdefault ↦ .inr ⟨rfl, hdefault⟩, ?_⟩
    rintro (⟨_, ha, -⟩ | ⟨-, hdefault⟩)
    · cases ha
    · exact hdefault
  | some a =>
    refine ⟨fun hget ↦ .inl ⟨a, rfl, Option.some.inj hget⟩, ?_⟩
    rintro (⟨_, ha, rfl⟩ | ⟨hnone, -⟩)
    · cases ha
      rfl
    · cases hnone

/-- What has a value has its name among the others. -/
theorem mem_names (h : Recorded b calls c) (hdistinct : Distinct b.schema?) {t : Term}
    (hget : c.get? name = some t) : name ∈ c.names := by
  rw [h.names_eq']
  rcases (h.get?_eq_some hdistinct).1 hget with ⟨a, ha, -⟩ | ⟨-, schema, p, hschema, hp, rfl, -⟩
  · have hmem := mem_of_lastArgument? ha
    cases hschema : b.schema? with
    | none =>
      rw [List.mem_eraseDups, ← hschema]
      exact List.mem_filterMap.2 ⟨_, hmem, rfl⟩
    | some schema =>
      obtain ⟨kind, hdeclares, -⟩ := of_decide_eq_true (List.mem_filter.1 hmem).2
      rw [hschema] at hdeclares
      cases hdeclares with
      | schema hp => exact List.mem_map_of_mem hp
  · rw [hschema]
    exact List.mem_map_of_mem hp

/-- The term lists the parameters that have a value. -/
theorem lists (h : Recorded b calls c) (hdistinct : Distinct b.schema?) :
    Lists c c.parameters.entries := by
  have hordered : (c.parameters.entries.filterMap (·.name?)).Sublist c.names := by
    have hfilter : c.parameters.entries.filterMap (·.name?) =
        c.names.filter fun name ↦ (c.get? name).isSome := by
      rw [parameters, List.filterMap_filterMap, ← List.filterMap_eq_filter]
      refine List.filterMap_congr fun name _ ↦ ?_
      cases hget : c.get? name with
      | none => simp [Option.guard, hget]
      | some t => simp [Option.guard, hget, Entry.name?, Label.name?]
    rw [hfilter]
    exact List.filter_sublist
  refine ⟨fun e he ↦ ?_, hordered.nodup (h.nodup_names hdistinct), hordered, fun name t ↦ ?_⟩
  · obtain ⟨name, -, t, -, rfl⟩ := mem_parameters.1 he
    exact ⟨name, t, rfl⟩
  · rw [mem_parameters]
    constructor
    · rintro ⟨n, -, u, hu, he⟩
      cases he
      exact hu
    · intro hget
      exact ⟨name, h.mem_names hdistinct hget, t, hget, rfl⟩

theorem keepsProtocol (h : Recorded b calls c) (hdistinct : Distinct b.schema?) :
    KeepsProtocol b calls c where
  set_eq_error name a error := by
    rw [← h.schema?_eq, ← h.genericName_eq]
    exact Component.set_eq_error (h.schema?_eq ▸ hdistinct)
  setInternal_eq_ok internal := ⟨_, rfl⟩
  unchanged _ _ := after_of_error
  get?_eq_some _ _ := h.get?_eq_some hdistinct
  names_eq := h.names_eq'
  toTerm_eq := by
    refine ⟨c.parameters.entries, h.lists hdistinct, ?_⟩
    rw [Component.toTerm_eq, h.genericName_eq, h.internal?_eq]
    rfl

end Recorded

/-- **The protocol of parameters.** A fresh component whose schema, if it has one, declares no name
twice keeps to the protocol after any calls. -/
theorem keepsProtocol_run (p : Prototype) (hdistinct : Distinct p.blueprint.schema?)
    (calls : List Call) : KeepsProtocol p.blueprint calls (p.instantiate.run calls) :=
  (recorded_run p hdistinct calls).keepsProtocol hdistinct

/-- A blueprint with three parameters, of which the first one has a default. -/
def countsBlueprint : Blueprint :=
  ⟨"Counts", some [{ name := "n", kind := .text, default? := some (.text "1") },
    { name := "noHead", kind := .text }, { name := "labels", kind := .array }]⟩

/-- A parameter is set twice, an array is refused where a text is wanted, and an internal listing
is set. -/
theorem keepsProtocol_run_counts :
    Distinct countsBlueprint.schema? ∧
    KeepsProtocol countsBlueprint
      [.set "labels" (.literal (.array [])), .set "labels" (.literal (.array [.text "a"])),
        .set "noHead" (.literal (.array [])), .setInternal []]
      ⟨"Counts", countsBlueprint.schema?, [("labels", .literal (.array [.text "a"]))], some [],
        none⟩ := by
  have hdistinct : Distinct countsBlueprint.schema? := by
    rintro _ ⟨⟩
    decide
  exact ⟨hdistinct, keepsProtocol_run ⟨.feature, "Counts", countsBlueprint⟩ hdistinct _⟩

end Component

end TermRegistry
