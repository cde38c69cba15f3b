import TermRegistry.Context

/-!
# Building definitions

A definition is built into a context by resolving its parameters, each of which may be a
definition itself that is looked for and, if nothing matches it, built as an anonymous entry. A
`Build` is such a computation on a context. It writes the entries it keeps into a journal; where it
fails it leaves the context as it has become, and `Build.undoing` forgets the entries journaled
since it began, one by one and the last one first, though not the numbers used up. Every prototype
that rejects a definition is undone that way, and so is every failed operation as a whole.

The recursion is on the structure of the definition: `findOrBuild` on terms, `populate` on the
parameters of a call.
-/

namespace TermRegistry

/-- A context that is being changed, and the journal of the entries kept in it since. -/
structure Progress where
  context : Context
  journal : List (Namespace × String) := []
deriving Inhabited

/-- Forgets the entries journaled behind a mark, the last one first. -/
def Progress.undo (p : Progress) (mark : Nat) : Progress where
  context := (p.journal.drop mark).foldr (fun e ctx ↦ ctx.forget e.1 e.2) p.context
  journal := p.journal.take mark

/-- A computation that changes a context and may fail. -/
abbrev Build := ExceptT Error (StateM Progress)

namespace Build

/-- The context as it has become. -/
def context : Build Context := do return (← get).context

/-- Asks the context. -/
def ask {α : Type} (f : Context → Except Error α) : Build α := do
  liftM (f (← context))

/-- Takes back the entries that a failing computation kept. -/
def undoing {α : Type} (b : Build α) : Build α := do
  let mark := (← get).journal.length
  try b
  catch e =>
    modify (·.undo mark)
    throw e

/-- Mints a name that is free in a namespace. -/
def mint (ns : Namespace) : Build String := do
  let n := (← context).nextNumber ns
  modify fun p ↦ { p with context := p.context.withCounter (n + 1) }
  return n.repr

/-- Keeps a fresh object under a name that is free, and journals it. -/
def keep (ns : Namespace) (name : String) (content : Content) : Build Kept := do
  let p ← get
  if p.context.contains ns name then
    throw (.duplicateName ns.tag name)
  let (kept, context) := p.context.keep ns name content
  set { p with context, journal := p.journal ++ [kept.place] : Progress }
  return kept

/-! ### One parameter -/

/-- Resolves a value by its shape; `find` looks for it as a definition in a namespace. -/
def resolveShape (find : Namespace → Build Kept) (t : Term) : Build Resolved := do
  match ← ask fun ctx ↦ ctx.shapeOf t with
  | .settled r => return r
  | .definition ns => return .entry (← find ns).link

/-- Resolves the value of a parameter of a kind. -/
def resolve (find : Namespace → Build Kept) (t : Term) : ParameterKind → Build Resolved
  | .text => do return .literal (.text (← ask fun ctx ↦ ctx.textOf t))
  | .array => do return .literal (.texts (← ask fun ctx ↦ ctx.textsOf t))
  | .entry ns => do return .entry (← find ns).link
  | .anyFunction => do return .entry (← find (← ask fun ctx ↦ ctx.inferFamily t)).link
  | .anything => resolveShape find t

/-- The name of a parameter: its own, or the one at its position among the names of the
component. -/
def parameterName (generic : String) (names : List String) (index : Nat) (label : Label) :
    Except Error String :=
  match label.name? with
  | some name => .ok name
  | none =>
    match names[index]? with
    | some name => .ok name
    | none => .error (.construction (.noPosition generic index))

/-- The kind of a parameter that a component has to have. -/
def parameterKind (generic : String) (c : Component) (name : String) :
    Except Error ParameterKind :=
  match c.kind? name with
  | some kind => .ok kind
  | none => .error (.construction (.noParameter generic name))

/-! ### One definition -/

/-- Tries prototypes in turn; the failure of the last one is that of all. -/
def tryPrototypes (populate : Component → Build Component) :
    Error → List Prototype → Build Component
  | failure, [] => throw failure
  | _, p :: ps => do
    try undoing (populate p.instantiate)
    catch e => tryPrototypes populate e ps

/-- Sets the parameters of a component and its internal listing. -/
def fill (populate : Component → Build Component) (internal : Option (List (Entry Term)))
    (c : Component) : Build Component := do
  return (← populate c).withInternal internal

/-- Builds the component that a term describes; `populate` sets the parameters of the call. -/
def component (populate : Component → Build Component) (ns : Namespace) (t : Term) :
    Build Component :=
  match t with
  | .call name _ internal => do
    ask fun ctx ↦ ctx.checkFamily ns t
    let prototypes ← ask fun ctx ↦ .ok (ctx.factories.prototypes ns name)
    tryPrototypes (fill populate internal) (.construction (.unknownGeneric ns name)) prototypes
  | _ => throw (.structural (.notComponent ns t))

/-- Builds the object that a term describes in a namespace. -/
def content (populate : Component → Build Component) (t : Term) : Namespace → Build Content
  | .array => do return .texts (← ask fun ctx ↦ ctx.textsOf t)
  | .value => do return .text (← ask fun ctx ↦ ctx.textOf t)
  | .ruleSet => do return .rules (← liftM (RuleSet.ofTerm t))
  | ns => do return .component (← component populate ns t)

/-- The single entry that a term matches, or else what another computation finds. -/
def matchOr (t : Term) (ns : Namespace) (otherwise : Build Kept) : Build Kept := do
  match ← ask fun ctx ↦ ctx.singleMatch ns t with
  | some k => return k
  | none => otherwise

/-- The entry that a term matches, or else a new anonymous one. The parameters of the term may
have been kept meanwhile, so it is looked for once more before it is kept. -/
def findOrKeep (populate : Component → Build Component) (t : Term) (ns : Namespace) :
    Build Kept :=
  matchOr t ns do
    let name ← mint ns
    let made ← content populate t ns
    matchOr t ns (keep ns name made)

mutual

/-- **The entry that a definition refers to or matches**, or else a new anonymous one. -/
def findOrBuild : Term → Namespace → Build Kept
  | .reference name, ns => ask fun ctx ↦ ctx.referred ns name
  | .call name ⟨entries, form⟩ internal, ns =>
    findOrKeep (fun c ↦ populate name c.names 0 entries c) (.call name ⟨entries, form⟩ internal) ns
  | t, ns => findOrKeep pure t ns

/-- Sets the parameters of a call, from a position on. -/
def populate (generic : String) (names : List String) (index : Nat) :
    List (Entry Term) → Component → Build Component
  | [], c => return c
  | ⟨label, _, t⟩ :: es, c => do
    let name ← liftM (parameterName generic names index label)
    let kind ← liftM (parameterKind generic c name)
    let resolved ← resolve (fun ns ↦ findOrBuild t ns) t kind
    let c ← liftM (c.set name ⟨t, resolved⟩)
    populate generic names (index + 1) es c

end

/-- Sets the parameters that a term gives to a component, if it is a call. -/
def populateFrom : Term → Component → Build Component
  | .call name parameters _, c => populate name c.names 0 parameters.entries c
  | _, c => return c

/-- The name for a new entry: a given one, which has to be free, or a minted one. -/
def nameFor (ns : Namespace) : Option String → Build String
  | some name => do
    ask fun ctx ↦ ctx.checkFree ns name
    return name
  | none => mint ns

/-- **Builds a new entry** under a name that has to be free, or under a minted one. -/
def construct (ns : Namespace) (name? : Option String) (t : Term) : Build Kept := do
  let name ← nameFor ns name?
  keep ns name (← content (populateFrom t) t ns)

end Build

end TermRegistry
