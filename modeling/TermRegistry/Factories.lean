import TermRegistry.Component

/-!
# Factories

Factories know which generic names a namespace has components for, and what a fresh component of
a generic name is like. Several prototypes may be registered for one name; they are tried in the
order of registration. A namespace with a fallback makes permissive components for every name it
has no registration for.
-/

namespace TermRegistry

/-- What fresh components are like: their generic name and their schema, if they have one. -/
structure Blueprint where
  genericName : String
  schema? : Option (List Parameter) := none
deriving DecidableEq, Inhabited

/-- A blueprint and the generic name in a namespace that it is registered for. -/
structure Prototype where
  family : Namespace
  name : String
  blueprint : Blueprint
deriving DecidableEq, Inhabited

namespace Prototype

/-- A prototype of permissive components. -/
def permissive (family : Namespace) (name : String) : Prototype :=
  ⟨family, name, { genericName := name }⟩

/-- A prototype of components with a schema. -/
def ofSchema (family : Namespace) (name : String) (schema : List Parameter) : Prototype :=
  ⟨family, name, ⟨name, some schema⟩⟩

/-- The prototype of compositions in a function namespace. -/
def composite (family : Namespace) : Prototype :=
  ofSchema family Term.compositeName [{ name := "f", kind := .anyFunction },
    { name := "g", kind := .anyFunction }]

/-- A fresh component. -/
def instantiate (p : Prototype) : Component :=
  { genericName := p.blueprint.genericName, schema? := p.blueprint.schema? }

/-- A prototype as it is shown. -/
def render (p : Prototype) : String := "Prototype(" ++ p.family.tag ++ " " ++ p.name ++ ")"

end Prototype

/-- What is registered, in order, and the namespaces that have a fallback. -/
structure Factories where
  registered : List Prototype := []
  fallback : List Namespace := []
deriving DecidableEq, Inhabited

namespace Factories

/-- Adds a prototype behind the others. -/
def register (f : Factories) (p : Prototype) : Factories :=
  { f with registered := f.registered ++ [p] }

/-- The factories that know composition in every function namespace, and nothing else. -/
def standard : Factories := { registered := Namespace.functions.map Prototype.composite }

/-- Gives a namespace a fallback. -/
def withFallback (f : Factories) (family : Namespace) : Factories :=
  if f.fallback.contains family then f else { f with fallback := f.fallback ++ [family] }

/-- Whether a namespace has a fallback. -/
def hasFallback (f : Factories) (family : Namespace) : Bool := f.fallback.contains family

/-- Whether a generic name is registered in a namespace. -/
def knows (f : Factories) (family : Namespace) (name : String) : Bool :=
  f.registered.any fun p ↦ p.family == family && p.name == name

/-- **The prototypes for a generic name**, in the order of registration. -/
def prototypes (f : Factories) (family : Namespace) (name : String) : List Prototype :=
  match f.registered.filter fun p ↦ p.family == family && p.name == name with
  | [] => if f.hasFallback family then [.permissive family name] else []
  | known => known

/-- The function namespace that a generic name belongs in: the one it is registered in, or else
the one with a fallback. -/
def familyOf (f : Factories) (name : String) : Except Error Namespace :=
  let known := Namespace.functions.filter fun ns ↦ f.knows ns name
  let families :=
    if known.isEmpty then Namespace.functions.filter f.hasFallback else known
  match families with
  | [ns] => .ok ns
  | [] => .error (.construction (.unknownFunction name))
  | _ => .error (.structural (.severalFamilies name families))

end Factories

end TermRegistry
