import TermRegistry.Error

/-!
# Components

A component is a live object that a call describes: it has a generic name and parameters. With a
schema it has exactly the declared parameters, of the declared kinds; without one it is permissive
and takes any named parameter. Each parameter keeps both the term it was written as and what that
resolved to, which is a literal or a link to a kept entry.

Links name entries by namespace and name, together with the identity of the live object, so that
"this very object" is a statement about data.
-/

namespace TermRegistry

/-! ### Identities -/

/-- The identity of a live object: the context it was made in, and how many were made there
before. -/
structure Identity where
  home : Nat
  serial : Nat
deriving DecidableEq, Repr, Inhabited

/-- A link to an entry: where it is kept, and which live object it is. -/
structure Link where
  ns : Namespace
  name : String
  id : Identity
deriving DecidableEq, Repr, Inhabited

/-! ### Parameters -/

/-- How the value of a parameter is resolved before a component gets it. -/
inductive ParameterKind
  /-- A literal text, or a reference to one. -/
  | text
  /-- An array, or a reference to one. -/
  | array
  /-- A definition in a namespace, or a reference to one. -/
  | entry (ns : Namespace)
  /-- A function from any of the function namespaces. -/
  | anyFunction
  /-- Whatever the shape of the value says. -/
  | anything
deriving DecidableEq, Repr, Inhabited

/-- What the value of a parameter resolved to. -/
inductive Resolved
  | literal (t : Term)
  | entry (link : Link)
deriving DecidableEq, Inhabited

/-- The value of a parameter: as written, and as resolved. -/
structure Argument where
  written : Term
  resolved : Resolved
deriving DecidableEq, Inhabited

namespace Argument

/-- A term that resolves to itself. -/
def literal (t : Term) : Argument := ⟨t, .literal t⟩

/-- The text that a parameter resolved to. -/
def text? (a : Argument) : Option String :=
  match a.resolved with
  | .literal t => t.text?
  | .entry _ => none

/-- The entry that a parameter resolved to. -/
def link? (a : Argument) : Option Link :=
  match a.resolved with
  | .literal _ => none
  | .entry link => some link

end Argument

/-- A declared parameter. -/
structure Parameter where
  name : String
  kind : ParameterKind
  default? : Option Term := none
deriving DecidableEq, Inhabited

/-- Whether a parameter of a kind takes a resolved value. -/
def ParameterKind.takes : ParameterKind → Resolved → Bool
  | text, .literal t => t.text?.isSome
  | array, .literal (.array _) => true
  | entry ns, .entry link => link.ns == ns
  | anyFunction, .entry link => link.ns.isFunction
  | anything, _ => true
  | _, _ => false

/-! ### Components -/

/-- A component. -/
structure Component where
  genericName : String
  schema? : Option (List Parameter) := none
  values : List (String × Argument) := []
  internal? : Option (List (Entry Term)) := none
  label? : Option String := none
deriving DecidableEq, Inhabited

namespace Component

/-- The declaration of a parameter. -/
def declared? (c : Component) (name : String) : Option Parameter :=
  c.schema?.bind fun schema ↦ schema.find? (·.name == name)

/-- The names of the parameters in their canonical order: that of the schema, or else that in
which they were first set. -/
def names (c : Component) : List String :=
  match c.schema? with
  | some schema => schema.map (·.name)
  | none => c.values.map Prod.fst

/-- The kind of a parameter, if the component has it. -/
def kind? (c : Component) (name : String) : Option ParameterKind :=
  match c.schema? with
  | some _ => (c.declared? name).map (·.kind)
  | none => some .anything

/-- The value a parameter was set to. -/
def argument? (c : Component) (name : String) : Option Argument := c.values.lookup name

/-- The term of a parameter: as it was set, or else its default. -/
def get? (c : Component) (name : String) : Option Term :=
  match c.argument? name with
  | some a => some a.written
  | none => (c.declared? name).bind (·.default?)

/-- Puts a value in the place of the one set before, or behind all others. -/
def put (values : List (String × Argument)) (name : String) (a : Argument) :
    List (String × Argument) :=
  if (values.lookup name).isSome then
    values.map fun v ↦ if v.1 = name then (name, a) else v
  else
    values ++ [(name, a)]

/-- **Sets a parameter**; refused if the component does not have it, or not of this kind. -/
def set (c : Component) (name : String) (a : Argument) : Except Error Component :=
  match c.kind? name with
  | none => .error (.construction (.noParameter c.genericName name))
  | some kind =>
    if kind.takes a.resolved then .ok { c with values := put c.values name a }
    else .error (.construction (.rejected c.genericName a.written name))

/-- Sets the internal listing. -/
def setInternal (c : Component) (internal : List (Entry Term)) : Component :=
  { c with internal? := some internal }

/-- Sets the internal listing, if there is one. -/
def withInternal (c : Component) : Option (List (Entry Term)) → Component
  | some internal => c.setInternal internal
  | none => c

/-- **The term of a component**: a call by its generic name, with every parameter that has a term
in canonical order, and with its internal listing. -/
def toTerm (c : Component) : Term :=
  .call c.genericName
    ⟨c.names.filterMap fun name ↦ (c.get? name).map fun t ↦ ⟨.named name, [], t⟩, .parameters⟩
    c.internal?

/-- The same value with its link, if it is one, replaced by the entry that is found under the
same name. -/
def relink (find : Namespace → String → Option Link) (a : Argument) : Argument :=
  match (a.link?).bind fun link ↦ find link.ns link.name with
  | some link => { a with resolved := .entry link }
  | none => a

/-- **The counterpart in a binary labelling**: it carries the label, and its links are replaced by
the entries found under the same names. -/
def binary (c : Component) (label : String) (find : Namespace → String → Option Link) :
    Component :=
  { c with
    label? := some label
    values := c.values.map fun v ↦ (v.1, relink find v.2) }

end Component

end TermRegistry
