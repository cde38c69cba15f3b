import TermRegistry.Context
import TermRegistry.Proofs.Matching.Parts
import TermRegistry.Proofs.Success

/-!
# Where functions belong

`Context.inferFamily` finds the function namespace of a term: that of a referenced function, that of
a call going by its generic name, and for a composition what its operands say. Of the context only
the factories and the names of functions matter for it, and of these only the names that a
composition comes down to, its `Term.operands`.
-/

namespace TermRegistry

/-! ### Compositions -/

namespace Term

/-- **The operands that are names**: those of the references that a composition comes down to. -/
def operands : Term → List String
  | reference name => [name]
  | call name ⟨[⟨l₁, ms₁, f⟩, ⟨l₂, ms₂, g⟩], _⟩ internal =>
    if isComposite name [⟨l₁, ms₁, f⟩, ⟨l₂, ms₂, g⟩] internal then f.operands ++ g.operands else []
  | _ => []

/-- The operands of a term are among its references. -/
theorem operands_subset_references (t : Term) : t.operands ⊆ t.references := by
  fun_induction operands t with
  | case1 name => exact List.Subset.refl _
  | case2 name l₁ ms₁ f l₂ ms₂ g form internal hcomposite ihf ihg =>
    refine List.append_subset.2 ⟨fun x hx ↦ ?_, fun x hx ↦ ?_⟩
    · exact mem_references_of_part List.mem_cons_self (ihf hx)
    · exact mem_references_of_part (List.mem_cons_of_mem f List.mem_cons_self) (ihg hx)
  | case3 | case4 => exact List.nil_subset _

/-- A composition is a call with its operands under the names `f` and `g`. -/
theorem eq_call_of_composition? {t f g : Term} (h : t.composition? = some (f, g)) :
    ∃ l₁ ms₁ l₂ ms₂ form,
      t = .call compositeName ⟨[⟨l₁, ms₁, f⟩, ⟨l₂, ms₂, g⟩], form⟩ none ∧
        l₁.name? = some "f" ∧ l₂.name? = some "g" := by
  rw [composition?.eq_def] at h
  split at h
  · next name d e form internal =>
    split at h
    · next hcomposite =>
      cases h
      obtain ⟨rfl, rfl, hnames⟩ := isComposite_iff.1 hcomposite
      obtain ⟨hf, hg⟩ := List.cons.inj hnames
      exact ⟨d.label, d.modifiers, e.label, e.modifiers, form, rfl, hf, (List.cons.inj hg).1⟩
    · cases h
  · cases h

end Term

/-! ### Inferring where a term belongs -/

namespace Context

variable {ctx ctx' : Context} {ns : Namespace} {name : String} {t : Term}

/-- A composition belongs where its operands say. -/
theorem inferFamily_composition {f g : Term} (ht : t.composition? = some (f, g)) :
    ctx.inferFamily t = .ok ns ↔
      ∃ fs gs, ctx.inferFamily f = .ok fs ∧ ctx.inferFamily g = .ok gs ∧
        fs.compose gs = some ns := by
  obtain ⟨l₁, ms₁, l₂, ms₂, form, rfl, hf, hg⟩ := Term.eq_call_of_composition? ht
  have hcomposite : Term.isComposite Term.compositeName [⟨l₁, ms₁, f⟩, ⟨l₂, ms₂, g⟩] none = true :=
    Term.isComposite_iff.2 ⟨rfl, rfl, by simp [Entry.name?, hf, hg]⟩
  rw [inferFamily, if_pos hcomposite]
  constructor
  · intro h
    obtain ⟨fs, hfs, h⟩ := bind_eq_ok.1 h
    obtain ⟨gs, hgs, h⟩ := bind_eq_ok.1 h
    refine ⟨fs, gs, hfs, hgs, ?_⟩
    split at h
    · next hns =>
      cases h
      exact hns
    · cases h
  · rintro ⟨fs, gs, hfs, hgs, hns⟩
    refine bind_eq_ok.2 ⟨fs, hfs, bind_eq_ok.2 ⟨gs, hgs, ?_⟩⟩
    rw [hns]
    rfl

/-- Names that are looked up name functions. -/
theorem exists_contains_of_inferFamily (h : ctx.inferFamily t = .ok ns)
    (hname : name ∈ t.operands) : ∃ ns' ∈ Namespace.functions, ctx.contains ns' name = true := by
  fun_induction ctx.inferFamily t generalizing ns with
  | case1 n found hfound =>
    obtain rfl := List.mem_singleton.1 hname
    exact ⟨found, List.mem_of_find?_eq_some hfound, by simpa using List.find?_some hfound⟩
  | case2 => cases h
  | case3 n l₁ ms₁ f l₂ ms₂ g form internal hcomposite ihf ihg =>
    obtain ⟨fs, hfs, h⟩ := bind_eq_ok.1 h
    obtain ⟨gs, hgs, -⟩ := bind_eq_ok.1 h
    rw [Term.operands, if_pos hcomposite, List.mem_append] at hname
    rcases hname with hname | hname
    · exact ihf hfs hname
    · exact ihg hgs hname
  | case4 n l₁ ms₁ f l₂ ms₂ g form internal hcomposite =>
    rw [Term.operands, if_neg hcomposite] at hname
    cases hname
  | case5 n parameters internal hother =>
    rw [Term.operands] at hname
    · cases hname
    · exact nofun
    · rintro _ l₁ ms₁ f l₂ ms₂ g form _ heq
      cases heq
      exact hother l₁ ms₁ f l₂ ms₂ g form rfl
  | case6 => cases h

/-- Where a term belongs depends on the factories and on its operands alone. -/
theorem inferFamily_congr (hf : ctx'.factories = ctx.factories)
    (h : ∀ name ∈ t.operands, ∀ ns ∈ Namespace.functions,
      ctx'.contains ns name = ctx.contains ns name) :
    ctx'.inferFamily t = ctx.inferFamily t := by
  have hfind {name : String} (hname : ∀ ns ∈ Namespace.functions,
      ctx'.contains ns name = ctx.contains ns name) :
      (Namespace.functions.find? fun ns ↦ ctx'.contains ns name) =
        Namespace.functions.find? fun ns ↦ ctx.contains ns name := by
    -- The three function namespaces are all that is looked at.
    simp only [Namespace.functions, List.find?_cons, List.find?_nil,
      hname .spanFn (by decide), hname .strFn (by decide), hname .spanStrFn (by decide)]
  fun_induction ctx.inferFamily t with
  | case1 name ns hns =>
    rw [inferFamily, hfind (h name List.mem_cons_self), hns]
  | case2 name hns =>
    rw [inferFamily, hfind (h name List.mem_cons_self), hns]
  | case3 name l₁ ms₁ f l₂ ms₂ g form internal hcomposite ihf ihg =>
    rw [Term.operands, if_pos hcomposite] at h
    rw [inferFamily, if_pos hcomposite, ihf fun n hn ↦ h n (List.mem_append_left _ hn),
      ihg fun n hn ↦ h n (List.mem_append_right _ hn)]
  | case4 name l₁ ms₁ f l₂ ms₂ g form internal hcomposite =>
    rw [inferFamily, if_neg hcomposite, hf]
  | case5 name parameters internal hother =>
    rw [inferFamily, hf]
    exact hother
  | case6 t hreference hpair hcall => rw [inferFamily] <;> assumption

/-- What the check lets through belongs in its namespace, if it is a composition. -/
theorem inferFamily_of_checkFamily (h : ctx.checkFamily ns t = .ok ())
    (hns : ns.isFunction = true) (ht : t.composition?.isSome = true) :
    ctx.inferFamily t = .ok ns := by
  rw [checkFamily, hns, ht] at h
  obtain ⟨inferred, hinferred, h⟩ := bind_eq_ok.1 h
  split at h
  · next heq => rw [hinferred, heq]
  · cases h

end Context

end TermRegistry
