import TermRegistry.Context.Derived
import TermRegistry.Context.Rules
import TermRegistry.Proofs.Operations

/-!
# What is reported of a failure

An operation reports the error that it fails with, once, and nothing when it succeeds
(`Reported.Once`). Whatever goes wrong inside a construction and is put right there is no part of
its answer, and loading stops at the first statement that fails, so that no report is made twice on
the way out. Two calls do not report: inferring the function namespace of a term, and applying a
rule by a name that the rule set does not have (`Call.isSilent`).

A session is what a sink sees: calls on several contexts that report to it, of which some have been
derived from others. It is told the failures of all calls but the silent ones, each of them once and
in the order of the calls (`Session.told_run`).
-/

namespace TermRegistry

/-! ### Reported once -/

namespace Reported

variable {α β : Type} {r : Reported α}

/-- The error that an operation fails with, if it does. -/
def failure? (r : Reported α) : Option Error :=
  match r.result with
  | .ok _ => none
  | .error e => some e

/-- **Reported once**: what is reported is the error of the failure, and nothing without one. -/
def Once (r : Reported α) : Prop := r.reports = r.failure?.toList

theorem failure?_of_error {e : Error} (h : r.result = .error e) : r.failure? = some e := by
  rw [failure?, h]

theorem failure?_of_ok {a : α} (h : r.result = .ok a) : r.failure? = none := by
  rw [failure?, h]

theorem once_of (result : Except Error α) : (Reported.of result).Once := by
  cases result <;> rfl

/-- An operation whose result is turned into another one reports the same. -/
def map (f : α → β) (r : Reported α) : Reported β := ⟨r.result.map f, r.reports⟩

@[simp] theorem failure?_map (f : α → β) (r : Reported α) : (r.map f).failure? = r.failure? := by
  obtain ⟨result, reports⟩ := r
  cases result <;> rfl

theorem Once.map (h : r.Once) (f : α → β) : (r.map f).Once := by
  rw [Once, failure?_map]
  exact h

end Reported

namespace Context

variable {ctx : Context}

open Reported

theorem once_perform {α : Type} (ctx : Context) (b : Build α) :
    (ctx.perform b).toReported.Once :=
  once_of _

theorem once_declare (ctx : Context) (s : Entry Term) : (ctx.declare s).toReported.Once := by
  rw [declare]
  split
  · exact once_perform ctx _
  · rfl

/-- **The first statement that fails is reported**, and none before it. -/
theorem once_declareAll (ctx : Context) (ss : List (Entry Term)) :
    (ctx.declareAll ss).toReported.Once := by
  induction ss generalizing ctx with
  | nil => rfl
  | cons s ss ih =>
    cases hs : (ctx.declare s).result with
    | ok k =>
      rw [declareAll_cons_ok hs]
      exact ih _
    | error e =>
      have hreports : (ctx.declareAll (s :: ss)).reports = (ctx.declare s).reports := by
        rw [declareAll]
        simp only [hs]
      rw [Once, failure?_of_error (declareAll_cons_error ss hs).1, hreports, once_declare ctx s,
        failure?_of_error hs]

theorem once_loadRead (ctx : Context) (read : Except Error (Listing Term)) :
    (ctx.loadRead read).toReported.Once := by
  cases read with
  | ok l => exact once_declareAll ctx l.entries
  | error e => rfl

/-- A clone fails with what loading the text of its source fails with. -/
theorem once_clone (ctx : Context) (home : Nat) : (ctx.clone home).Once :=
  (once_loadRead (ctx.sibling home) _).map _

/-! ### Calls -/

/-- **The public operations that can fail**, and the one that derives the features alone. Reading a
context from a text or from bytes makes a new one that reports to the same sink. -/
inductive Call
  | fromText (home : Nat) (factories : Factories) (text : String)
  | fromBytes (home : Nat) (factories : Factories) (bytes : ByteArray)
  | load (text : String)
  | construct (ns : Namespace) (name? : Option String) (t : Term)
  | getOrConstruct (ns : Namespace) (t : Term)
  | getMatch (ns : Namespace) (pattern : Term)
  | infer (t : Term)
  | clone (home : Nat)
  | binary (label : String) (home : Nat)
  | onlyFeatures (home : Nat)
  | applyRule (rules : RuleSet) (name : String) (source : Term) (extra : Binding)

/-- The answer to a call: also the context that it made, if it made one. -/
structure Answer extends Step Unit where
  made? : Option Context := none

/-- The answer of an operation that changes the context. -/
def Answer.changing {α : Type} (step : Step α) : Answer :=
  { step.toReported.map fun _ ↦ () with context := step.context }

/-- The answer of an operation that asks the context. -/
def Answer.asking {α : Type} (ctx : Context) (r : Reported α) : Answer :=
  { r.map fun _ ↦ () with context := ctx }

/-- The answer of an operation that makes another context. -/
def Answer.making (ctx : Context) (r : Reported Context) : Answer :=
  { Answer.asking ctx r with made? := r.result.toOption }

/-- A context that was filled by loading, if this succeeded. -/
def filled (step : Step Unit) : Reported Context := step.toReported.map fun _ ↦ step.context

/-- **What is answered to a call.** -/
def answer (ctx : Context) : Call → Answer
  | .fromText home factories text => .making ctx (filled ((empty home factories).load text))
  | .fromBytes home factories bytes => .making ctx (filled ((empty home factories).loadBytes bytes))
  | .load text => .changing (ctx.load text)
  | .construct ns name? t => .changing (ctx.construct ns name? t)
  | .getOrConstruct ns t => .changing (ctx.getOrConstruct ns t)
  | .getMatch ns pattern => .asking ctx (ctx.getMatch ns pattern)
  | .infer t => .asking ctx { result := ctx.inferFamily t }
  | .clone home => .making ctx (ctx.clone home)
  | .binary label home => .making ctx (ctx.binary label home)
  | .onlyFeatures home => .making ctx { result := .ok (ctx.onlyFeatures home) }
  | .applyRule rules name source extra => .asking ctx (ctx.applyRule rules name source extra)

/-- **Silent calls**: inferring a function namespace, and applying a rule that there is not. -/
def Call.isSilent : Call → Bool
  | .infer _ => true
  | .applyRule rules name _ _ => (rules.get? name).isNone
  | _ => false

/-- **All calls but the silent ones report once.** -/
theorem once_answer (ctx : Context) {c : Call} (h : c.isSilent = false) :
    (ctx.answer c).toReported.Once := by
  cases c with
  | infer t => cases h
  | fromText | fromBytes => exact ((once_loadRead _ _).map _).map _
  | load text => exact (once_loadRead ctx _).map _
  | construct | getOrConstruct => exact (once_perform ctx _).map _
  | getMatch ns pattern => exact (once_of _).map _
  | clone home => exact (once_clone ctx home).map _
  | binary label home => exact (once_of _).map _
  | onlyFeatures home => rfl
  | applyRule rules name source extra =>
    obtain ⟨rule, hrule⟩ := Option.isSome_iff_exists.1 (Option.isNone_eq_false_iff.1 h)
    refine Once.map ?_ _
    rw [applyRule, hrule]
    exact once_of _

/-- **Silent calls report nothing.** -/
theorem reports_of_isSilent (ctx : Context) {c : Call} (h : c.isSilent = true) :
    (ctx.answer c).reports = [] := by
  cases c with
  | infer t => rfl
  | applyRule rules name source extra =>
    have hnone : rules.get? name = none := Option.isNone_iff_eq_none.1 h
    show (ctx.applyRule rules name source extra).reports = []
    rw [applyRule, hnone]
  | _ => cases h

/-- What has to be reported of a call: the error it fails with, if it is not silent. -/
def due (ctx : Context) (c : Call) : List Error :=
  if c.isSilent then [] else (ctx.answer c).failure?.toList

theorem reports_answer (ctx : Context) (c : Call) : (ctx.answer c).reports = ctx.due c := by
  rw [due]
  cases h : c.isSilent with
  | true => exact reports_of_isSilent ctx h
  | false => exact once_answer ctx h

end Context

/-! ### Sessions -/

/-- Contexts that report to one sink, and what the sink was told. -/
structure Session where
  contexts : List Context
  told : List Error := []

namespace Session

/-- A session after a call on one of its contexts, which may have made another one. -/
def after (s : Session) (call : Nat × Context.Call) : Session :=
  match s.contexts[call.1]? with
  | none => s
  | some ctx =>
    let a := ctx.answer call.2
    ⟨s.contexts.set call.1 a.context ++ a.made?.toList, s.told ++ a.reports⟩

/-- A session after some calls. -/
def run (s : Session) (calls : List (Nat × Context.Call)) : Session := calls.foldl after s

/-- What has to be reported of a call on one of the contexts. -/
def due (s : Session) (call : Nat × Context.Call) : List Error :=
  match s.contexts[call.1]? with
  | none => []
  | some ctx => ctx.due call.2

/-- What has to be reported of some calls, each on what the calls before it left. -/
def dues (s : Session) : List (Nat × Context.Call) → List Error
  | [] => []
  | call :: calls => s.due call ++ (s.after call).dues calls

/-- **A call tells the sink what is due.** -/
theorem told_after (s : Session) (call : Nat × Context.Call) :
    (s.after call).told = s.told ++ s.due call := by
  rw [after, due]
  split
  · exact (List.append_nil _).symm
  · exact congrArg (s.told ++ ·) (Context.reports_answer _ _)

/-- **A run tells the sink what is due**, in order. -/
theorem told_run (s : Session) (calls : List (Nat × Context.Call)) :
    (s.run calls).told = s.told ++ s.dues calls := by
  induction calls generalizing s with
  | nil => exact (List.append_nil _).symm
  | cons call calls ih =>
    show ((s.after call).run calls).told = _
    rw [ih, told_after, dues, List.append_assoc]

/-- **Every failure is reported exactly once, but for two kinds.** On any context, a call that is
not silent sends the sink one message if it fails, the text of its error, and none if it succeeds; a
silent call sends none either way. Over a whole session of calls, on contexts that report to one
sink and on those derived from them, the sink is told the failures of the calls that are not silent,
in order, and nothing else. -/
theorem failures_reported_once (ctx : Context) (c : Context.Call) (s : Session)
    (calls : List (Nat × Context.Call)) :
    (c.isSilent = false →
      (∀ e, (ctx.answer c).result = .error e →
        (ctx.answer c).reports.map Error.message = [e.message]) ∧
      ((ctx.answer c).result = .ok () → (ctx.answer c).reports = [])) ∧
    (c.isSilent = true → (ctx.answer c).reports = []) ∧
    (s.run calls).told = s.told ++ s.dues calls := by
  refine ⟨fun hc ↦ ⟨fun e he ↦ ?_, fun hok ↦ ?_⟩,
    Context.reports_of_isSilent ctx, told_run s calls⟩
  · rw [Context.once_answer ctx hc, Reported.failure?_of_error he]
    rfl
  · rw [Context.once_answer ctx hc, Reported.failure?_of_ok hok]
    rfl

/-- A name that is taken in a derived context is told once, and an inference that fails is not. -/
theorem failures_reported_once_derived :
    let define : Context.Call := .construct .feature (some "A") (.call "F" {} none)
    let ctx := (((Context.empty 0 ⟨[], [.feature]⟩).answer define).context.answer
      (.onlyFeatures 1)).made?.getD default
    let s : Session := { contexts := [.empty 0 ⟨[], [.feature]⟩] }
    (ctx.answer define).reports.map Error.message = ["Duplicate name in feature: A"] ∧
      (s.run [(0, define), (0, .onlyFeatures 1), (1, define), (1, .infer (.reference "A"))]).told =
        [.duplicateName "feature" "A"] ∧
      (ctx.answer (.infer (.reference "A"))).reports = [] := by
  intro define ctx s
  have hresult : (ctx.answer define).result = .error (.duplicateName "feature" "A") := by
    decide +kernel
  have hdues :
      s.dues [(0, define), (0, .onlyFeatures 1), (1, define), (1, .infer (.reference "A"))] =
        [.duplicateName "feature" "A"] := by
    decide +kernel
  obtain ⟨honce, -, hrun⟩ := failures_reported_once ctx define s
    [(0, define), (0, .onlyFeatures 1), (1, define), (1, .infer (.reference "A"))]
  obtain ⟨-, hsilent, -⟩ := failures_reported_once ctx (.infer (.reference "A")) s []
  refine ⟨(honce rfl).1 _ hresult, ?_, hsilent rfl⟩
  rw [hrun, hdues]
  rfl

/-- **Two failures that are not reported**: a function that is not there has no namespace, and a
rule that is not there does not apply. -/
theorem failures_unreported :
    let ctx := Context.empty 0 {}
    let rules : RuleSet := { rules := [("a", ⟨.text "x", .text "y"⟩)] }
    ((ctx.answer (.infer (.reference "x"))).result = .error (.unresolved "x") ∧
      (ctx.answer (.infer (.reference "x"))).reports = []) ∧
    (ctx.answer (.applyRule rules "b" (.text "x") {})).result = .error (.unresolved "b") ∧
      (ctx.answer (.applyRule rules "b" (.text "x") {})).reports = [] :=
  ⟨⟨rfl, rfl⟩, rfl, rfl⟩

end Session

end TermRegistry
