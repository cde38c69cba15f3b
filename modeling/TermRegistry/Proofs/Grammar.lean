import TermRegistry.Term.Parser

/-!
# The grammar of terms

`Derives w p` says that the tokens `w` are a phrase `p`: a value, a primary, some items, a
parameter, some parameters or some statements, together with what the phrase denotes. There is one
rule for each alternative of the grammar, so that an induction over a derivation is one induction
for all kinds of phrases at once.

The grammar is the one that the parser reads. It differs from the documented one in the name of a
parameter, which may be any value that denotes a text: a word in parentheses is read as a name too.
-/

namespace TermRegistry

/-- A kind of phrase and what a phrase of this kind denotes. -/
inductive Phrase
  | value (t : Term)
  /-- A value without `o` outside parentheses. -/
  | primary (t : Term)
  /-- One or more values separated by commas. -/
  | items (ts : List Term)
  | parameter (e : Entry Term)
  /-- Parameters separated by commas. -/
  | parameters (es : List (Entry Term))
  /-- Statements, of which the last may lack its semicolon. -/
  | statements (es : List (Entry Term))

/-- **Headings of statements**: what stands in front of the value, up to the `=`. -/
inductive Heading : List Token → Label → List String → Prop
  | named {w : Token} {name : String} (h : w.text? = some name) :
      Heading [w, .equals] (.named name) []
  | typed {ws : List Token} {modifiers : List String} {v w : Token} {type name : String}
      (hs : ws.map Token.text? = modifiers.map some) (hv : v.text? = some type)
      (hw : w.text? = some name) :
      Heading (ws ++ [v, w, .equals]) (.typed type name) modifiers

/-- **Derivations**: the tokens are a phrase, with what it denotes. -/
inductive Derives : List Token → Phrase → Prop
  | single {w : List Token} {t : Term} (h : Derives w (.primary t)) : Derives w (.value t)
  | composition {v w : List Token} {f g : Term} (hf : Derives v (.primary f))
      (hg : Derives w (.value g)) : Derives (v ++ .compose :: w) (.value (.composite f g))
  | text {k : Token} {s : String} (h : k.text? = some s) : Derives [k] (.primary (.text s))
  | reference {k : Token} {name : String} (h : k.text? = some name) :
      Derives [.dollar, .leftBrace, k, .rightBrace] (.primary (.reference name))
  | capture (name : String) :
      Derives [.leftBracket, .word name, .rightBracket] (.primary (.capture name))
  | emptyArray : Derives [.leftBracket, .rightBracket] (.primary (.array []))
  | array {w : List Token} {ts : List Term} (h : Derives w (.items ts))
      (hw : ∀ name, w ≠ [.word name]) :
      Derives (.leftBracket :: w ++ [.rightBracket]) (.primary (.array ts))
  | parenthesized {w : List Token} {t : Term} (h : Derives w (.value t)) :
      Derives (.leftParen :: w ++ [.rightParen]) (.primary t)
  | rule {v w : List Token} {s t : Term} (hs : Derives v (.value s)) (ht : Derives w (.value t)) :
      Derives (.leftParen :: v ++ .rightParen :: .arrow :: .leftParen :: w ++ [.rightParen])
        (.primary (.rule s t))
  | call {k : Token} {name : String} {w : List Token} {es : List (Entry Term)}
      (h : k.text? = some name) (hw : Derives w (.parameters es)) :
      Derives (k :: .leftParen :: w ++ [.rightParen]) (.primary (.call name ⟨es, .parameters⟩ none))
  | callWith {k : Token} {name : String} {v w : List Token} {es internal : List (Entry Term)}
      (h : k.text? = some name) (hv : Derives v (.parameters es))
      (hw : Derives w (.statements internal)) :
      Derives (k :: .leftParen :: v ++ .rightParen :: .leftBrace :: w ++ [.rightBrace])
        (.primary (.call name ⟨es, .parameters⟩ (some internal)))
  | item {w : List Token} {t : Term} (h : Derives w (.value t)) : Derives w (.items [t])
  | moreItems {v w : List Token} {t : Term} {ts : List Term} (h : Derives v (.value t))
      (hw : Derives w (.items ts)) : Derives (v ++ .comma :: w) (.items (t :: ts))
  | positional {w : List Token} {t : Term} (h : Derives w (.value t)) :
      Derives w (.parameter ⟨.positional, [], t⟩)
  | named {v w : List Token} {name : String} {t : Term} (hv : Derives v (.value (.text name)))
      (hw : Derives w (.value t)) :
      Derives (v ++ .equals :: w) (.parameter ⟨.named name, [], t⟩)
  | noParameters : Derives [] (.parameters [])
  | lastParameter {w : List Token} {e : Entry Term} (h : Derives w (.parameter e)) :
      Derives w (.parameters [e])
  | moreParameters {v w : List Token} {e d : Entry Term} {es : List (Entry Term)}
      (h : Derives v (.parameter e)) (hw : Derives w (.parameters (d :: es)))
      (hu : Listing.Uniform (e :: d :: es)) :
      Derives (v ++ .comma :: w) (.parameters (e :: d :: es))
  | noStatements : Derives [] (.statements [])
  | lastStatement {u v : List Token} {label : Label} {modifiers : List String} {t : Term}
      (h : Heading u label modifiers) (ht : Derives v (.value t)) :
      Derives (u ++ v) (.statements [⟨label, modifiers, t⟩])
  | moreStatements {u v w : List Token} {label : Label} {modifiers : List String} {t : Term}
      {es : List (Entry Term)} (h : Heading u label modifiers) (ht : Derives v (.value t))
      (hw : Derives w (.statements es)) :
      Derives (u ++ v ++ .semicolon :: w) (.statements (⟨label, modifiers, t⟩ :: es))

/-! ### First tokens -/

namespace Token

/-- Whether a value can begin with a token. -/
def beginsValue : Token → Bool
  | word _ | quoted _ | dollar | leftBracket | leftParen => true
  | _ => false

theorem beginsValue_of_text? {k : Token} {s : String} (h : k.text? = some s) :
    k.beginsValue = true := by
  cases k <;> first | rfl | cases h

end Token

namespace Phrase

/-- Whether the phrases of a kind begin like values. -/
def IsValueLike : Phrase → Prop
  | value _ | primary _ | items _ | parameter _ => True
  | parameters es => es ≠ []
  | statements _ => False

end Phrase

/-- Values, items and parameters begin with a token that begins a value. -/
theorem Derives.exists_first {w : List Token} {p : Phrase} (h : Derives w p)
    (hp : p.IsValueLike) : ∃ k ks, w = k :: ks ∧ k.beginsValue = true := by
  induction h with
  | single _ ih | item _ ih | positional _ ih | lastParameter _ ih => exact ih trivial
  | composition _ _ ih _ | moreItems _ _ ih _ | named _ _ ih _ | moreParameters _ _ _ ih _ =>
    obtain ⟨k, ks, rfl, hk⟩ := ih trivial
    exact ⟨k, _, rfl, hk⟩
  | text h | call h _ | callWith h _ _ => exact ⟨_, _, rfl, Token.beginsValue_of_text? h⟩
  | reference | capture | emptyArray | array | parenthesized | rule => exact ⟨_, _, rfl, rfl⟩
  | noParameters => exact absurd rfl hp
  | noStatements | lastStatement | moreStatements => exact hp.elim

/-- Headings begin with a word. -/
theorem Heading.exists_first {w : List Token} {label : Label} {modifiers : List String}
    (h : Heading w label modifiers) : ∃ k ks s, w = k :: ks ∧ k.text? = some s := by
  cases h with
  | named h => exact ⟨_, _, _, rfl, h⟩
  | @typed ws modifiers v w type name hs hv hw =>
    cases ws with
    | nil => exact ⟨v, _, _, rfl, hv⟩
    | cons k ks =>
      cases modifiers with
      | nil => cases hs
      | cons s ss => exact ⟨k, _, s, rfl, (List.cons.inj hs).1⟩

/-- Parameters have neither a declaration type nor modifiers. -/
theorem Derives.untyped {w : List Token} {e : Entry Term} (h : Derives w (.parameter e)) :
    e.type? = none ∧ e.modifiers = [] := by
  cases h with
  | positional | named => exact ⟨rfl, rfl⟩

/-- No parameters are derived from no tokens alone. -/
theorem Derives.eq_nil {w : List Token} (h : Derives w (.parameters [])) : w = [] := by
  cases h with
  | noParameters => rfl

/-- The entries of derived parameters are all named or all positional. -/
theorem Derives.uniform {w : List Token} {es : List (Entry Term)}
    (h : Derives w (.parameters es)) : Listing.Uniform es := by
  cases h with
  | noParameters => exact .inl fun e he ↦ absurd he List.not_mem_nil
  | @lastParameter _ e _ => cases hn : e.name? <;> simp [Listing.Uniform, hn]
  | moreParameters _ _ hu => exact hu

end TermRegistry
