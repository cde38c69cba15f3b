import TermRegistry.Factories
import TermRegistry.Matching
import TermRegistry.Registry

/-!
# Contexts

A context holds named live objects in the order in which they were declared: a registry, and the
factories that its components are made by. Whatever can be asked about a context is read off its
registry.

Nothing in this file changes a context except `Context.keep`, which adds one entry, and
`Context.forget`, which takes one back.
-/

namespace TermRegistry

/-- A context. -/
structure Context where
  /-- What the identities of the objects made here have in common. -/
  home : Nat := 0
  factories : Factories := {}
  registry : Registry := {}
  /-- How many objects were made here. -/
  made : Nat := 0
deriving DecidableEq, Inhabited

namespace Context

/-! ### Views -/

/-- The number of entries. -/
def size (ctx : Context) : Nat := ctx.registry.order.length

/-- Where the minting of names goes on. -/
def counter (ctx : Context) : Nat := ctx.registry.counter

/-- All entries, in the order of declaration. -/
def entries (ctx : Context) : List Kept := ctx.registry.entries

/-- The entries of a namespace, in order. -/
def inNamespace (ctx : Context) (ns : Namespace) : List Kept := ctx.registry.inNamespace ns

/-- The names in a namespace, in order. -/
def names (ctx : Context) (ns : Namespace) : List String := (ctx.registry.keeper ns).names

/-- The namespaces and names of all entries, in order. -/
def order (ctx : Context) : List (Namespace × String) := ctx.registry.order

/-- **The entry of a name in a namespace.** -/
def find? (ctx : Context) (ns : Namespace) (name : String) : Option Kept :=
  ctx.registry.find? ns name

/-- Whether a name is taken in a namespace. -/
def contains (ctx : Context) (ns : Namespace) (name : String) : Bool :=
  ctx.registry.contains ns name

/-- The rule set of a name. -/
def ruleSet? (ctx : Context) (name : String) : Option RuleSet :=
  (ctx.find? .ruleSet name).bind fun k ↦
    match k.content with
    | .rules s => some s
    | _ => none

/-- The entry that a bare name stands for: the first in the order of resolution. -/
def lookup? (ctx : Context) (name : String) : Option Kept :=
  Namespace.resolutionOrder.findSome? fun ns ↦ ctx.find? ns name

/-- The terms of all entries by name, such that the first of a name is what it stands for. -/
def storage (ctx : Context) : Storage :=
  .ofList (Namespace.resolutionOrder.flatMap fun ns ↦
    (ctx.inNamespace ns).map fun k ↦ (k.name, k.toTerm))

/-- All entries as typed statements, in order. -/
def statements (ctx : Context) : Listing Term := .ofEntries (ctx.entries.map Kept.statement)

/-- **The text of a context**, one declaration per line. -/
def render (ctx : Context) : String := ctx.statements.render

/-! ### Matching entries -/

/-- Those of some entries that a pattern matches. -/
def matched (s : Storage) (pattern : Term) : List Kept → Except Error (List Kept)
  | [] => .ok []
  | k :: ks => do
    let m ← pattern.matching s k.toTerm
    let rest ← matched s pattern ks
    return if m.isSome then k :: rest else rest

/-- **The single entry of a namespace that a pattern matches**, if there is one. Of several, the
one that matches the pattern in turn; the match is ambiguous when that does not leave just one. -/
def singleMatch (ctx : Context) (ns : Namespace) (pattern : Term) :
    Except Error (Option Kept) := do
  let s := ctx.storage
  match ← matched s pattern (ctx.inNamespace ns) with
  | [] => return none
  | [k] => return some k
  | found =>
    match found.filter fun k ↦ k.toTerm.matches s pattern with
    | [k] => return some k
    | _ => throw (.ambiguous ns (found.map (·.name)))

/-! ### Reading values -/

/-- The text that a term denotes: a literal text, or a reference to an entry that holds one. -/
def textOf (ctx : Context) : Term → Except Error String
  | .text s => .ok s
  | .reference name =>
    match (ctx.find? .value name).map Kept.content with
    | some (.text s) => .ok s
    | _ => .error (.unresolved name)
  | t => .error (.structural (.notText t))

/-- The texts of array items. -/
def itemTexts : List Term → Except Error (List String)
  | [] => .ok []
  | .text s :: ts => do return s :: (← itemTexts ts)
  | t :: _ => .error (.structural (.arrayItem t))

/-- The texts that a term denotes: an array of them, or a reference to an entry that holds
them. -/
def textsOf (ctx : Context) : Term → Except Error (List String)
  | .array items => itemTexts items
  | .reference name =>
    match (ctx.find? .array name).map Kept.content with
    | some (.texts items) => .ok items
    | _ => .error (.unresolved name)
  | t => .error (.structural (.notArray t))

/-- **The function namespace that a term belongs in.** A composition belongs where its operands
say. -/
def inferFamily (ctx : Context) : Term → Except Error Namespace
  | .reference name =>
    match Namespace.functions.find? fun ns ↦ ctx.contains ns name with
    | some ns => .ok ns
    | none => .error (.unresolved name)
  | .call name ⟨[⟨l₁, ms₁, f⟩, ⟨l₂, ms₂, g⟩], form⟩ internal =>
    if Term.isComposite name [⟨l₁, ms₁, f⟩, ⟨l₂, ms₂, g⟩] internal then do
      let fs ← ctx.inferFamily f
      let gs ← ctx.inferFamily g
      match fs.compose gs with
      | some ns => return ns
      | none =>
        throw (.structural (.notComposable fs gs
          (.call name ⟨[⟨l₁, ms₁, f⟩, ⟨l₂, ms₂, g⟩], form⟩ internal)))
    else ctx.factories.familyOf name
  | .call name _ _ => ctx.factories.familyOf name
  | t => .error (.structural (.notFunction t))

/-- The entry of a namespace that a reference is to. -/
def referred (ctx : Context) (ns : Namespace) (name : String) : Except Error Kept :=
  match ctx.find? ns name with
  | some k => .ok k
  | none => .error (.unresolved name)

/-- What the value of a parameter that takes anything is, going by its shape. -/
inductive Shape
  /-- It resolves at once. -/
  | settled (r : Resolved)
  /-- It is a definition in a namespace. -/
  | definition (ns : Namespace)
deriving DecidableEq, Inhabited

/-- **The shape of a value**: references are resolved, calls of known functions are definitions,
and other calls are literals. -/
def shapeOf (ctx : Context) : Term → Except Error Shape
  | .reference name =>
    match ctx.lookup? name with
    | some k => .ok (.settled k.resolved)
    | none => .error (.unresolved name)
  | .capture name => .error (.structural (.misplacedCapture name))
  | .call name parameters internal =>
    match ctx.inferFamily (.call name parameters internal) with
    | .ok ns => .ok (.definition ns)
    | .error e =>
      if (Term.call name parameters internal).composition?.isSome then .error e
      else .ok (.settled (.literal (.call name parameters internal)))
  | t => .ok (.settled (.literal t))

/-- Refuses a composition that does not belong in a function namespace. -/
def checkFamily (ctx : Context) (ns : Namespace) (t : Term) : Except Error Unit :=
  if ns.isFunction && t.composition?.isSome then do
    let inferred ← ctx.inferFamily t
    if inferred = ns then return () else throw (.structural (.wrongFamily t inferred ns))
  else return ()

/-- Refuses a name that is taken. -/
def checkFree (ctx : Context) (ns : Namespace) (name : String) : Except Error Unit :=
  if ctx.contains ns name then throw (.duplicateName ns.tag name) else return ()

/-! ### Changing a context -/

/-- The number of the next synthetic name in a namespace. -/
def nextNumber (ctx : Context) (ns : Namespace) : Nat := ctx.registry.nextNumber ns

/-- Sets the counter. -/
def withCounter (ctx : Context) (counter : Nat) : Context :=
  { ctx with registry := { ctx.registry with counter } }

/-- Keeps an object, of this context or of another. -/
def share (ctx : Context) (k : Kept) : Context :=
  { ctx with registry := ctx.registry.keep k.ns k.name k.live }

/-- Keeps a fresh object. -/
def keep (ctx : Context) (ns : Namespace) (name : String) (content : Content) : Kept × Context :=
  let kept : Kept := ⟨ns, name, ⟨ctx.home, ctx.made⟩, content⟩
  (kept, { ctx.share kept with made := ctx.made + 1 })

/-- Forgets an entry. -/
def forget (ctx : Context) (ns : Namespace) (name : String) : Context :=
  { ctx with registry := ctx.registry.forget ns name }

end Context

end TermRegistry
