import TermRegistry.Context.Construction
import TermRegistry.Term.Parser

/-!
# Operations on a context

The public operations: building entries, looking for the entry that a definition matches, and
loading the declarations of a text. Each answers with its result, the context afterwards and the
errors it reported. An operation reports the error it fails with, once, and reports nothing when it
succeeds; whatever failed and was put right inside it goes unreported.
-/

namespace TermRegistry

/-- What an operation answers: its result and the errors it reported. -/
structure Reported (α : Type) where
  result : Except Error α
  reports : List Error := []
deriving Inhabited

/-- A result whose error, if it is one, is reported. -/
def Reported.of {α : Type} (result : Except Error α) : Reported α :=
  match result with
  | .ok _ => { result }
  | .error e => { result, reports := [e] }

/-- What an operation on a context answers: also the context afterwards. -/
structure Step (α : Type) extends Reported α where
  context : Context
deriving Inhabited

namespace Context

/-- Runs a computation as a whole: if it fails, it is undone, and its error is reported. -/
def perform {α : Type} (ctx : Context) (b : Build α) : Step α :=
  let (result, p) := (Build.undoing b).run.run { context := ctx }
  { Reported.of result with context := p.context }

/-- The context with nothing in it. Contexts whose objects are told apart need different homes. -/
def empty (home : Nat) (factories : Factories) : Context := { home, factories }

/-! ### Single definitions -/

/-- **Builds a new entry** in a namespace, under a name that has to be free or under a minted
one. -/
def construct (ctx : Context) (ns : Namespace) (name? : Option String) (t : Term) : Step Kept :=
  ctx.perform (Build.construct ns name? t)

/-- **The entry that a term refers to or matches**, or else a new anonymous one. -/
def getOrConstruct (ctx : Context) (ns : Namespace) (t : Term) : Step Kept :=
  ctx.perform (Build.findOrBuild t ns)

/-- The single entry of a namespace that a pattern matches, if there is one. -/
def getMatch (ctx : Context) (ns : Namespace) (pattern : Term) : Reported (Option Kept) :=
  .of (ctx.singleMatch ns pattern)

/-! ### Declarations -/

/-- The namespace that a statement declares something in. -/
def declaredNamespace (statement : Entry Term) : Except Error Namespace :=
  match statement.type? with
  | some type => Namespace.parse type
  | none => .error (.structural (.noType statement))

/-- Builds the entry that a statement declares. -/
def declare (ctx : Context) (statement : Entry Term) : Step Kept :=
  match declaredNamespace statement with
  | .ok ns => ctx.construct ns statement.name? statement.value
  | .error e => { Reported.of (.error e) with context := ctx }

/-- Builds the entries that some statements declare, up to the first one that fails. -/
def declareAll (ctx : Context) : List (Entry Term) → Step Unit
  | [] => { result := .ok (), context := ctx }
  | s :: ss =>
    let step := ctx.declare s
    match step.result with
    | .ok _ => step.context.declareAll ss
    | .error e => { result := .error e, reports := step.reports, context := step.context }

/-- Loads statements, if they could be read. -/
def loadRead (ctx : Context) (read : Except Error (Listing Term)) : Step Unit :=
  match read with
  | .ok l => ctx.declareAll l.entries
  | .error e => { Reported.of (.error e) with context := ctx }

/-- **Loads the declarations of a text**, up to the first one that fails. -/
def load (ctx : Context) (text : String) : Step Unit :=
  ctx.loadRead (Listing.parseStatements text)

/-- Loads the declarations that some bytes denote, which have to be UTF-8. -/
def loadBytes (ctx : Context) (bytes : ByteArray) : Step Unit :=
  ctx.loadRead (Listing.parseBytes bytes)

end Context

end TermRegistry
