import TermRegistry.Listing

/-!
# Terms

Everything the language can write is a term: a text, a reference `${name}`, a capture `[name]`
in the source of a rule, an array, a listing, a call with parameters and possibly an internal
listing, or a rule. The internal listing of a call is always in statement form, so only its
entries are kept.

The composition `f o g` is the call `Composite(f=.., g=..)`; `Term.composition?` takes it apart
and `Term.composite` puts it together.

Functions on terms are defined by structural recursion over the type and its nested lists;
`Term.beq_iff_eq` makes equality of terms decidable.
-/

namespace TermRegistry

/-- The terms of the language. -/
inductive Term
  /-- A literal text. -/
  | text (content : String)
  /-- `${name}` -/
  | reference (name : String)
  /-- `[name]` -/
  | capture (name : String)
  | array (items : List Term)
  | listing (listing : Listing Term)
  /-- `name(parameters)`, and `name(parameters) { internal }` when there is an internal listing. -/
  | call (name : String) (parameters : Listing Term) (internal : Option (List (Entry Term)))
  /-- `(source) -> (target)` -/
  | rule (source target : Term)
deriving Repr, Inhabited

namespace Term

/-! ### Views -/

/-- The text of a literal text. -/
def text? : Term → Option String
  | text s => some s
  | _ => none

/-- The name of a reference. -/
def reference? : Term → Option String
  | reference name => some name
  | _ => none

/-- The word for the shape of a term in a message. -/
def kind : Term → String
  | text _ => "value"
  | reference _ => "reference"
  | capture _ => "capture"
  | array _ => "array"
  | listing _ => "assignment list"
  | call .. => "function"
  | rule .. => "rule"

/-- The array of some texts. -/
def texts (items : List String) : Term := array (items.map text)

/-! ### Composition -/

/-- The name of the calls that denote composition. -/
def compositeName : String := "Composite"

/-- `f o g` -/
def composite (f g : Term) : Term :=
  call compositeName ⟨[⟨.named "f", [], f⟩, ⟨.named "g", [], g⟩], .parameters⟩ none

/-- Whether a call denotes a composition: it bears the name, has no internal listing, and its two
entries are named `f` and `g`. -/
def isComposite (name : String) (entries : List (Entry Term))
    (internal : Option (List (Entry Term))) : Bool :=
  name == compositeName && internal.isNone && entries.map (·.name?) == [some "f", some "g"]

/-- The operands of a composition. -/
def composition? : Term → Option (Term × Term)
  | call name ⟨[f, g], _⟩ internal =>
    if isComposite name [f, g] internal then some (f.value, g.value) else none
  | _ => none

theorem isComposite_iff {name : String} {entries : List (Entry Term)}
    {internal : Option (List (Entry Term))} : isComposite name entries internal = true ↔
      name = compositeName ∧ internal = none ∧ entries.map (·.name?) = [some "f", some "g"] := by
  rw [isComposite, Bool.and_eq_true, Bool.and_eq_true, beq_iff_eq, beq_iff_eq,
    Option.isNone_iff_eq_none, and_assoc]

@[simp] theorem composition?_composite (f g : Term) : (composite f g).composition? = some (f, g) :=
  rfl

/-! ### Captures -/

mutual

/-- Whether a capture occurs anywhere in a term. -/
def hasCapture : Term → Bool
  | text _ | reference _ => false
  | capture _ => true
  | array items => anyCapture items
  | listing ⟨entries, _⟩ => anyEntryCapture entries
  | call _ ⟨entries, _⟩ none => anyEntryCapture entries
  | call _ ⟨entries, _⟩ (some internal) => anyEntryCapture entries || anyEntryCapture internal
  | rule source target => source.hasCapture || target.hasCapture

/-- Whether a capture occurs in one of some terms. -/
def anyCapture : List Term → Bool
  | [] => false
  | t :: ts => t.hasCapture || anyCapture ts

/-- Whether a capture occurs in the value of one of some entries. -/
def anyEntryCapture : List (Entry Term) → Bool
  | [] => false
  | ⟨_, _, t⟩ :: es => t.hasCapture || anyEntryCapture es

end

theorem anyCapture_eq (ts : List Term) : anyCapture ts = ts.any hasCapture := by
  induction ts with
  | nil => rfl
  | cons t ts ih => rw [anyCapture, ih, List.any_cons]

theorem anyEntryCapture_eq (es : List (Entry Term)) :
    anyEntryCapture es = es.any (·.value.hasCapture) := by
  induction es with
  | nil => rfl
  | cons e es ih => rw [anyEntryCapture, ih, List.any_cons]

/-! ### Size -/

mutual

/-- The number of terms that occur in a term, itself included. -/
def size : Term → Nat
  | text _ | reference _ | capture _ => 1
  | array items => sizeAll items + 1
  | listing ⟨entries, _⟩ => sizeEntries entries + 1
  | call _ ⟨entries, _⟩ none => sizeEntries entries + 1
  | call _ ⟨entries, _⟩ (some internal) => sizeEntries entries + sizeEntries internal + 1
  | rule source target => source.size + target.size + 1

/-- The number of terms that occur in some terms. -/
def sizeAll : List Term → Nat
  | [] => 0
  | t :: ts => t.size + sizeAll ts

/-- The number of terms that occur in the values of some entries. -/
def sizeEntries : List (Entry Term) → Nat
  | [] => 0
  | ⟨_, _, t⟩ :: es => t.size + sizeEntries es

end

/-! ### Equality -/

mutual

/-- Whether two terms are equal, as a test. -/
def beq : Term → Term → Bool
  | text a, text b => a == b
  | reference a, reference b => a == b
  | capture a, capture b => a == b
  | array as, array bs => beqAll as bs
  | listing ⟨as, f⟩, listing ⟨bs, g⟩ => f == g && beqEntries as bs
  | call m ⟨as, f⟩ none, call n ⟨bs, g⟩ none => m == n && f == g && beqEntries as bs
  | call m ⟨as, f⟩ (some is), call n ⟨bs, g⟩ (some js) =>
    m == n && f == g && beqEntries as bs && beqEntries is js
  | rule a b, rule c d => beq a c && beq b d
  | _, _ => false

/-- Whether two lists of terms are equal, as a test. -/
def beqAll : List Term → List Term → Bool
  | [], [] => true
  | a :: as, b :: bs => beq a b && beqAll as bs
  | _, _ => false

/-- Whether two lists of entries are equal, as a test. -/
def beqEntries : List (Entry Term) → List (Entry Term) → Bool
  | [], [] => true
  | ⟨l, ms, a⟩ :: as, ⟨k, ns, b⟩ :: bs => l == k && ms == ns && beq a b && beqEntries as bs
  | _, _ => false

end

mutual

theorem beq_iff_eq : (a b : Term) → (beq a b = true ↔ a = b)
  | text _, b => by cases b <;> simp [beq]
  | reference _, b => by cases b <;> simp [beq]
  | capture _, b => by cases b <;> simp [beq]
  | array as, b => by
    cases b with
    | array bs => simp [beq, beqAll_iff_eq as bs]
    | _ => simp [beq]
  | listing ⟨as, f⟩, b => by
    cases b with
    | listing l => obtain ⟨bs, g⟩ := l; simp [beq, beqEntries_iff_eq as bs, and_comm]
    | _ => simp [beq]
  | call m ⟨as, f⟩ none, b => by
    cases b with
    | call n l js =>
      obtain ⟨bs, g⟩ := l
      cases js <;> simp [beq, beqEntries_iff_eq as bs, and_assoc, and_comm]
    | _ => simp [beq]
  | call m ⟨as, f⟩ (some is), b => by
    cases b with
    | call n l js =>
      obtain ⟨bs, g⟩ := l
      cases js with
      | none => simp [beq]
      | some js =>
        simp [beq, beqEntries_iff_eq as bs, beqEntries_iff_eq is js, and_assoc, and_left_comm]
    | _ => simp [beq]
  | rule a b, t => by
    cases t with
    | rule c d => simp [beq, beq_iff_eq a c, beq_iff_eq b d]
    | _ => simp [beq]

theorem beqAll_iff_eq : (as bs : List Term) → (beqAll as bs = true ↔ as = bs)
  | [], bs => by cases bs <;> simp [beqAll]
  | a :: as, bs => by
    cases bs with
    | nil => simp [beqAll]
    | cons b bs => simp [beqAll, beq_iff_eq a b, beqAll_iff_eq as bs]

theorem beqEntries_iff_eq : (as bs : List (Entry Term)) → (beqEntries as bs = true ↔ as = bs)
  | [], bs => by cases bs <;> simp [beqEntries]
  | ⟨l, ms, a⟩ :: as, bs => by
    cases bs with
    | nil => simp [beqEntries]
    | cons e bs =>
      obtain ⟨k, ns, b⟩ := e
      simp [beqEntries, beq_iff_eq a b, beqEntries_iff_eq as bs, and_assoc]

end

instance : DecidableEq Term := fun a b ↦ decidable_of_iff _ (beq_iff_eq a b)

end Term

end TermRegistry
