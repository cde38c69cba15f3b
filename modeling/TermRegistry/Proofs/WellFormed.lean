import TermRegistry.Proofs.Parsing
import TermRegistry.Proofs.Spelling

/-!
# Well-formed terms

Not every term can be written: a listing has no text of its own inside a term, a capture is written
as it stands, and the parts of a call have to be in the form in which calls are written. The terms
that can be written are the well-formed ones; here they are defined, and shown to contain whatever
the parser returns.

**Parameters and statements.** The parameters of a call are in parameter form, bear neither types
nor modifiers, and are all named or all positional. An internal listing is in statement form, which
its type takes care of, its entries are named, and modifiers stand only in front of a type.
-/

namespace TermRegistry

/-! ### Entries and listings -/

namespace Entry

variable {α : Type}

/-- Whether an entry can be written as a parameter: without a declaration type or modifiers. -/
def isParameter (e : Entry α) : Bool := e.type?.isNone && e.modifiers.isEmpty

/-- Whether an entry can be written as a statement: it is named, and has modifiers only if it has a
declaration type. -/
def isStatement (e : Entry α) : Bool :=
  e.name?.isSome && (e.type?.isSome || e.modifiers.isEmpty)

end Entry

namespace Listing

variable {α : Type}

/-- Whether some entries can be written as the parameters of a call. -/
def areParameters (es : List (Entry α)) : Bool := es.all Entry.isParameter && decide (Uniform es)

/-- Whether some entries can be written as statements. -/
def areStatements (es : List (Entry α)) : Bool := es.all Entry.isStatement

end Listing

/-! ### Terms -/

namespace Term

mutual

/-- **Well-formed terms**, those that can be written. -/
def isWellFormed : Term → Bool
  | text _ | reference _ => true
  | capture name => Text.isPlainWord name
  | array items => allWellFormed items
  | listing _ => false
  | call _ ⟨entries, form⟩ none =>
    form == .parameters && Listing.areParameters entries && entriesWellFormed entries
  | call _ ⟨entries, form⟩ (some internal) =>
    form == .parameters && Listing.areParameters entries && entriesWellFormed entries &&
      Listing.areStatements internal && entriesWellFormed internal
  | rule source target => source.isWellFormed && target.isWellFormed

/-- Whether some terms are all well-formed. -/
def allWellFormed : List Term → Bool
  | [] => true
  | t :: ts => t.isWellFormed && allWellFormed ts

/-- Whether the values of some entries are all well-formed. -/
def entriesWellFormed : List (Entry Term) → Bool
  | [] => true
  | ⟨_, _, t⟩ :: es => t.isWellFormed && entriesWellFormed es

end

theorem allWellFormed_eq (ts : List Term) : allWellFormed ts = ts.all isWellFormed := by
  induction ts with
  | nil => rfl
  | cons t ts ih => rw [allWellFormed, ih, List.all_cons]

theorem entriesWellFormed_cons (e : Entry Term) (es : List (Entry Term)) :
    entriesWellFormed (e :: es) = (e.value.isWellFormed && entriesWellFormed es) := rfl

theorem entriesWellFormed_eq (es : List (Entry Term)) :
    entriesWellFormed es = es.all (·.value.isWellFormed) := by
  induction es with
  | nil => rfl
  | cons e es ih => rw [entriesWellFormed, ih, List.all_cons]

end Term

namespace Listing

/-- **Parameter lists**: listings that can be written as parameters. -/
def isParameterList (l : Listing Term) : Bool :=
  l.form == .parameters && areParameters l.entries && Term.entriesWellFormed l.entries

/-- **Statement lists**: listings that can be written as statements. -/
def isStatementList (l : Listing Term) : Bool :=
  l.form == .statements && areStatements l.entries && Term.entriesWellFormed l.entries

end Listing

/-! ### Phrases -/

/-- Whether what a phrase denotes is well-formed. -/
def Phrase.isWellFormed : Phrase → Bool
  | value t | primary t => t.isWellFormed
  | items ts => Term.allWellFormed ts
  | parameter e => e.isParameter && e.value.isWellFormed
  | parameters es => Listing.areParameters es && Term.entriesWellFormed es
  | statements es => Listing.areStatements es && Term.entriesWellFormed es

/-- A heading labels a statement. -/
theorem Heading.isStatement {w : List Token} {label : Label} {modifiers : List String}
    (h : Heading w label modifiers) (t : Term) :
    (⟨label, modifiers, t⟩ : Entry Term).isStatement := by
  cases h <;> rfl

/-- Whether a token is anything but a bare word that would not read back as one. -/
def Token.isPlain : Token → Bool
  | word s => Text.isPlainWord s
  | _ => true

/-- Nothing but plain tokens comes out of a text. -/
theorem Lexed.all_isPlain (s : String) :
    ((Lexed.ofString s).tokens.map (·.token)).all Token.isPlain = true := by
  refine List.all_eq_true.2 fun k hk ↦ ?_
  obtain ⟨t, ht, rfl⟩ := List.mem_map.1 hk
  cases hword : t.token with
  | word s => exact isPlainWord_of_mem ht hword
  | _ => rfl

/-- A composition is well-formed when its operands are. -/
theorem Term.isWellFormed_composite (f g : Term) :
    (composite f g).isWellFormed = (f.isWellFormed && g.isWellFormed) := by
  show (true && (f.isWellFormed && (g.isWellFormed && true))) = _
  rw [Bool.true_and, Bool.and_true]

/-- A parameter in front of others makes a parameter list if all of them are uniform. -/
theorem Listing.areParameters_cons {α : Type} {e : Entry α} {es : List (Entry α)}
    (he : e.isParameter = true) (hes : areParameters es = true) (hu : Uniform (e :: es)) :
    areParameters (e :: es) = true := by
  rw [areParameters, Bool.and_eq_true] at hes ⊢
  exact ⟨List.all_cons.trans (by rw [he, hes.1]; rfl), decide_eq_true hu⟩

/-- **What a phrase denotes is well-formed**, if its tokens come out of a text. -/
theorem Derives.isWellFormed {w : List Token} {p : Phrase} (h : Derives w p)
    (hw : w.all Token.isPlain = true) : p.isWellFormed = true := by
  -- The plain tokens matter for captures alone; elsewhere they are handed down to the parts.
  induction h with
  | single _ ih => exact ih hw
  | composition _ _ ihf ihg =>
    rw [List.all_append, List.all_cons, Bool.and_eq_true, Bool.and_eq_true] at hw
    exact (Term.isWellFormed_composite _ _).trans (Bool.and_eq_true_iff.2 ⟨ihf hw.1, ihg hw.2.2⟩)
  | text | reference | emptyArray | noParameters | noStatements => rfl
  | capture name =>
    simp only [List.all_cons, Bool.and_eq_true] at hw
    exact hw.2.1
  | array _ _ ih =>
    rw [List.cons_append, List.all_cons, List.all_append, Bool.and_eq_true, Bool.and_eq_true] at hw
    exact ih hw.2.1
  | parenthesized _ ih =>
    rw [List.cons_append, List.all_cons, List.all_append, Bool.and_eq_true, Bool.and_eq_true] at hw
    exact ih hw.2.1
  | rule _ _ ihs iht =>
    simp only [List.cons_append, List.append_assoc, List.all_cons, List.all_append,
      Bool.and_eq_true] at hw
    exact Bool.and_eq_true_iff.2 ⟨ihs hw.2.1, iht hw.2.2.2.2.2.1⟩
  | call _ _ ih =>
    simp only [List.cons_append, List.all_cons, List.all_append, Bool.and_eq_true] at hw
    exact Bool.and_eq_true_iff.2 (Bool.and_eq_true_iff.1 (ih hw.2.2.1))
  | callWith _ _ _ ihv ihw =>
    simp only [List.cons_append, List.append_assoc, List.all_cons, List.all_append,
      Bool.and_eq_true] at hw
    have hv := Bool.and_eq_true_iff.1 (ihv hw.2.2.1)
    have hi := Bool.and_eq_true_iff.1 (ihw hw.2.2.2.2.2.1)
    show (_ && _ && _ && _) = true
    rw [Bool.and_eq_true, Bool.and_eq_true, Bool.and_eq_true]
    exact ⟨⟨⟨hv.1, hv.2⟩, hi.1⟩, hi.2⟩
  | item _ ih =>
    show (_ && true) = true
    rw [Bool.and_true]
    exact ih hw
  | moreItems _ _ ih ihw =>
    rw [List.all_append, List.all_cons, Bool.and_eq_true, Bool.and_eq_true] at hw
    exact Bool.and_eq_true_iff.2 ⟨ih hw.1, ihw hw.2.2⟩
  | positional _ ih => exact ih hw
  | named _ _ _ ih =>
    rw [List.all_append, List.all_cons, Bool.and_eq_true, Bool.and_eq_true] at hw
    exact ih hw.2.2
  | lastParameter h ih =>
    have he := Bool.and_eq_true_iff.1 (ih hw)
    refine Bool.and_eq_true_iff.2 ⟨?_, ?_⟩
    · exact Listing.areParameters_cons he.1 rfl (Derives.lastParameter h).uniform
    · rw [Term.entriesWellFormed_cons, he.2]
      rfl
  | moreParameters _ _ hu ih ihw =>
    rw [List.all_append, List.all_cons, Bool.and_eq_true, Bool.and_eq_true] at hw
    have he := Bool.and_eq_true_iff.1 (ih hw.1)
    have hes := Bool.and_eq_true_iff.1 (ihw hw.2.2)
    refine Bool.and_eq_true_iff.2 ⟨Listing.areParameters_cons he.1 hes.1 hu, ?_⟩
    rw [Term.entriesWellFormed_cons, he.2, hes.2]
    rfl
  | lastStatement h _ ih =>
    rw [List.all_append, Bool.and_eq_true] at hw
    refine Bool.and_eq_true_iff.2 ⟨?_, ?_⟩
    · exact List.all_eq_true.2 fun e he ↦ List.mem_singleton.1 he ▸ h.isStatement _
    · rw [Term.entriesWellFormed_cons]
      exact Bool.and_eq_true_iff.2 ⟨ih hw.2, rfl⟩
  | moreStatements h _ _ ih ihw =>
    rw [List.all_append, List.all_append, List.all_cons, Bool.and_eq_true, Bool.and_eq_true,
      Bool.and_eq_true] at hw
    have hes := Bool.and_eq_true_iff.1 (ihw hw.2.2)
    refine Bool.and_eq_true_iff.2 ⟨?_, ?_⟩
    · exact List.all_cons.trans (Bool.and_eq_true_iff.2 ⟨h.isStatement _, hes.1⟩)
    · rw [Term.entriesWellFormed_cons]
      exact Bool.and_eq_true_iff.2 ⟨ih hw.1.2, hes.2⟩

end TermRegistry
