import TermRegistry.Component
import TermRegistry.RuleSet

/-!
# Registries

A registry keeps live objects under names, apart for each of the ten namespaces, and remembers the
order in which they were declared. An entry is recorded in three places: in the map of its
namespace, in the list of the names of its namespace, and in the order of all declarations.
`Registry.keep` adds an entry to all three, `Registry.forget` takes it out of all three, and
nothing else changes them. Beside them stands the counter from which the names of anonymous
entries are minted; it only goes up.
-/

namespace TermRegistry

/-! ### Live objects -/

/-- What a live object holds. -/
inductive Content
  | component (c : Component)
  | rules (s : RuleSet)
  | texts (items : List String)
  | text (s : String)
deriving DecidableEq, Inhabited

namespace Content

/-- The term of a live object. -/
def toTerm : Content → Term
  | component c => c.toTerm
  | rules s => s.toTerm
  | texts items => .texts items
  | text s => .text s

/-- Whether a namespace holds objects of this sort. -/
def suits : Content → Namespace → Bool
  | rules _, .ruleSet => true
  | texts _, .array => true
  | text _, .value => true
  | component _, ns => !([.ruleSet, .array, .value].contains ns)
  | _, _ => false

end Content

/-- A live object: which one it is, and what it holds. -/
structure Live where
  id : Identity
  content : Content
deriving DecidableEq, Inhabited

/-- A kept entry: a live object under a name in a namespace. -/
structure Kept where
  ns : Namespace
  name : String
  id : Identity
  content : Content
deriving DecidableEq, Inhabited

namespace Kept

/-- The live object of an entry. -/
def live (k : Kept) : Live := ⟨k.id, k.content⟩

/-- The term of an entry. -/
def toTerm (k : Kept) : Term := k.content.toTerm

/-- Where an entry is kept. -/
def place (k : Kept) : Namespace × String := (k.ns, k.name)

/-- The link to an entry. Two entries are the very same just when their links are equal. -/
def link (k : Kept) : Link := ⟨k.ns, k.name, k.id⟩

/-- What a reference to an entry resolves to where anything may stand: the text or the texts of the
entry, or else the entry itself. -/
def resolved (k : Kept) : Resolved :=
  match k.content with
  | .text _ | .texts _ => .literal k.toTerm
  | _ => .entry k.link

/-- An entry as a typed statement. -/
def statement (k : Kept) : Entry Term := ⟨.typed k.ns.tag k.name, [], k.toTerm⟩

end Kept

/-! ### One namespace -/

/-- What is kept in one namespace. -/
structure Keeper where
  /-- The live objects by their names. -/
  objects : List (String × Live) := []
  /-- The names, in the order in which they were kept. -/
  names : List String := []
deriving DecidableEq, Inhabited

namespace Keeper

/-- The object of a name. -/
def get? (k : Keeper) (name : String) : Option Live := k.objects.lookup name

/-- Whether a name is taken. -/
def contains (k : Keeper) (name : String) : Bool := (k.get? name).isSome

/-- The number of objects. -/
def size (k : Keeper) : Nat := k.objects.length

/-- Keeps an object under a name; the object that is there already stays. -/
def keep (k : Keeper) (name : String) (live : Live) : Keeper :=
  if k.contains name then k else ⟨(name, live) :: k.objects, k.names ++ [name]⟩

/-- Forgets the object of a name, if there is one. -/
def forget (k : Keeper) (name : String) : Keeper :=
  if k.contains name then ⟨k.objects.filter (·.1 != name), k.names.filter (· != name)⟩ else k

end Keeper

/-! ### All namespaces -/

/-- The objects of all namespaces, the order of their declarations, and the counter. -/
structure Registry where
  keepers : Vector Keeper 10 := Vector.replicate 10 {}
  /-- The namespaces and names of all entries, in the order of declaration. -/
  order : List (Namespace × String) := []
  /-- Where the minting of names goes on. -/
  counter : Nat := 0
deriving DecidableEq

namespace Registry

instance : Inhabited Registry := ⟨{}⟩

/-- What is kept in a namespace. -/
def keeper (r : Registry) (ns : Namespace) : Keeper := r.keepers[ns.index]

/-- Whether a name is taken in a namespace. -/
def contains (r : Registry) (ns : Namespace) (name : String) : Bool :=
  (r.keeper ns).contains name

/-- **The entry of a name in a namespace.** -/
def find? (r : Registry) (ns : Namespace) (name : String) : Option Kept :=
  ((r.keeper ns).get? name).map fun live ↦ ⟨ns, name, live.id, live.content⟩

/-- The entries of a namespace, in the order in which they were kept. -/
def inNamespace (r : Registry) (ns : Namespace) : List Kept :=
  (r.keeper ns).names.filterMap (r.find? ns)

/-- All entries, in the order of declaration. -/
def entries (r : Registry) : List Kept := r.order.filterMap fun e ↦ r.find? e.1 e.2

/-- Puts a changed keeper in its place. -/
def update (r : Registry) (ns : Namespace) (k : Keeper) : Registry :=
  { r with keepers := r.keepers.set ns.index k }

/-- **Keeps an object**; the object that is there already stays. -/
def keep (r : Registry) (ns : Namespace) (name : String) (live : Live) : Registry :=
  if r.contains ns name then r
  else { r.update ns ((r.keeper ns).keep name live) with order := r.order ++ [(ns, name)] }

/-- **Forgets an entry**, if there is one. -/
def forget (r : Registry) (ns : Namespace) (name : String) : Registry :=
  if r.contains ns name then
    { r.update ns ((r.keeper ns).forget name) with order := r.order.filter (· != (ns, name)) }
  else r

/-! ### Minting names -/

/-- The first number from `n` on whose numeral is not taken, after at most so many tries. -/
def firstFree (taken : String → Bool) : Nat → Nat → Nat
  | 0, n => n
  | tries + 1, n => if taken n.repr then firstFree taken tries (n + 1) else n

/-- The number of the next synthetic name in a namespace. As many tries as there are names are
enough, because each failing one meets a name of its own. -/
def nextNumber (r : Registry) (ns : Namespace) : Nat :=
  firstFree (r.contains ns) (r.keeper ns).names.length r.counter

end Registry

end TermRegistry
