/-!
# Result caches

A cache either keeps nothing, keeps one result for each identifier, or keeps one result for all
of them. What it keeps is the first result computed for a key since it was last cleared.
-/

namespace TermRegistry

/-- What a cache tells apart. -/
inductive CacheMode
  /-- Nothing is kept. -/
  | none
  /-- One result is kept for each identifier. -/
  | perCall
  /-- One result is kept, whatever the identifier. -/
  | singleton
deriving DecidableEq, Repr, Inhabited

/-- The key under which a result is kept, if it is. -/
def CacheMode.key? : CacheMode → String → Option String
  | none, _ => .none
  | perCall, id => some id
  | singleton, _ => some ""

/-- A cache and the results in it. -/
structure Cache (α : Type) where
  mode : CacheMode := .none
  entries : List (String × α) := []
deriving Repr, Inhabited

namespace Cache

variable {α : Type}

/-- The number of results kept. -/
def size (c : Cache α) : Nat := c.entries.length

/-- What a cache answers: the result, whether it was computed for this answer, and the cache
afterwards. -/
structure Answer (α : Type) where
  result : α
  computed : Bool
  cache : Cache α

/-- **The result kept for an identifier**, which is computed and kept if there is none yet. -/
def getOrCompute (c : Cache α) (id : String) (compute : Unit → α) : Answer α :=
  match c.mode.key? id with
  | .none => ⟨compute (), true, c⟩
  | some key =>
    match c.entries.lookup key with
    | some kept => ⟨kept, false, c⟩
    | .none =>
      let result := compute ()
      ⟨result, true, { c with entries := c.entries ++ [(key, result)] }⟩

/-- Forgets every result. -/
def clear (c : Cache α) : Cache α := { c with entries := [] }

end Cache

end TermRegistry
