import TermRegistry.Context.Operations

/-!
# Derived contexts

A context can be cloned by loading its own text, relabelled for a binary labelling, or restricted
to its features. A clone shares no object with its source. The other two share the objects that
they do not change: they hold the same entries, with the same identities.
-/

namespace TermRegistry

namespace Context

/-- A context with nothing in it and the same factories. -/
def sibling (ctx : Context) (home : Nat) : Context := empty home ctx.factories

/-- **An independent context** with the same declarations, built anew from their text. -/
def clone (ctx : Context) (home : Nat) : Reported Context :=
  let step := (ctx.sibling home).load ctx.render
  { result := step.result.map fun _ ↦
      step.context.withCounter (max step.context.counter ctx.counter)
    reports := step.reports }

/-- The link that a name has in a context. -/
def linkOf (ctx : Context) (ns : Namespace) (name : String) : Option Link :=
  (ctx.find? ns name).map Kept.link

/-- The binary counterpart of an entry, kept in a context under construction: labelled components
are labelled and relinked, rule sets are copied, all else is shared. -/
def keepBinary (ctx : Context) (label : String) (k : Kept) : Except Error Context :=
  if ctx.contains k.ns k.name then .error (.duplicateName k.ns.tag k.name)
  else
    match k.content with
    | .component c =>
      if k.ns.isLabelled then
        .ok (ctx.keep k.ns k.name (.component (c.binary label ctx.linkOf))).2
      else .ok (ctx.share k)
    | .rules s => .ok (ctx.keep k.ns k.name (.rules (s.binary label))).2
    | _ => .ok (ctx.share k)

/-- **The context of a binary labelling.** -/
def binary (ctx : Context) (label : String) (home : Nat) : Reported Context :=
  .of (do
    let made ← ctx.entries.foldlM (·.keepBinary label) (ctx.sibling home)
    return made.withCounter ctx.counter)

/-- **The features alone**, which are shared. -/
def onlyFeatures (ctx : Context) (home : Nat) : Context :=
  ((ctx.inNamespace .feature).foldl share (ctx.sibling home)).withCounter ctx.counter

end Context

end TermRegistry
