/-!
# Namespaces

Every definition lives in one of ten namespaces, which its declaration names by a tag. Three of
them hold functions: from token spans to token spans, from strings to strings, and from token
spans to strings. `Namespace.compose` says which of them a composition belongs in.
-/

namespace TermRegistry

/-- The ten kinds of definitions. -/
inductive Namespace
  | model
  | feature
  | gridSearch
  | evaluation
  | ruleSet
  /-- Functions from token spans to token spans. -/
  | spanFn
  /-- Functions from strings to strings. -/
  | strFn
  /-- Functions from token spans to strings. -/
  | spanStrFn
  | array
  | value
deriving DecidableEq, Repr, Inhabited

namespace Namespace

/-- The declaration type that stands for a namespace. -/
def tag : Namespace → String
  | model => "model"
  | feature => "feature"
  | gridSearch => "gs"
  | evaluation => "evaluation"
  | ruleSet => "rs"
  | spanFn => "ts_fn"
  | strFn => "str_fn"
  | spanStrFn => "ts_str_fn"
  | array => "array"
  | value => "value"

/-- All namespaces. -/
def all : List Namespace :=
  [model, feature, gridSearch, evaluation, ruleSet, spanFn, strFn, spanStrFn, array, value]

theorem mem_all (ns : Namespace) : ns ∈ all := by
  cases ns <;> decide

/-- The place of a namespace among all namespaces. -/
def index : Namespace → Fin 10
  | model => 0
  | feature => 1
  | gridSearch => 2
  | evaluation => 3
  | ruleSet => 4
  | spanFn => 5
  | strFn => 6
  | spanStrFn => 7
  | array => 8
  | value => 9

theorem index_inj {a b : Namespace} : a.index = b.index ↔ a = b := by
  cases a <;> cases b <;> decide

theorem exists_index_eq : ∀ i : Fin 10, ∃ ns ∈ all, ns.index = i := by
  decide

/-- The namespace that a declaration type stands for. -/
def ofTag? (tag : String) : Option Namespace :=
  all.find? (·.tag == tag)

theorem ofTag?_tag (ns : Namespace) : ofTag? ns.tag = some ns := by
  cases ns <;> rfl

/-- The namespaces that hold functions. -/
def functions : List Namespace := [spanFn, strFn, spanStrFn]

/-- Whether a namespace holds functions. -/
def isFunction (ns : Namespace) : Bool := functions.contains ns

/-- Whether the components of a namespace carry the label of a binary labelling. -/
def isLabelled : Namespace → Bool
  | model | feature | gridSearch | evaluation => true
  | _ => false

/-- The order in which a bare name is looked up where its use does not fix a namespace. -/
def resolutionOrder : List Namespace :=
  [value, array, spanFn, strFn, spanStrFn, feature, model, evaluation, gridSearch, ruleSet]

/-- The namespace of `f o g`, when a function of the first namespace can follow one of the
second: what `g` yields is what `f` takes. -/
def compose : Namespace → Namespace → Option Namespace
  | spanFn, spanFn => some spanFn
  | strFn, strFn => some strFn
  | strFn, spanStrFn => some spanStrFn
  | spanStrFn, spanFn => some spanStrFn
  | _, _ => none

end Namespace

end TermRegistry
