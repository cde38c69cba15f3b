import Mathlib
import TermRegistry.Proofs.Grammar

/-!
# Derivations of the documented grammar

The documented grammar of terms is

```text
statements := (WORD* WORD "=" value ";")*
parameters := (param ("," param)*)?
param      := (WORD "=")? value
value      := primary ("o" primary)*
primary    := WORD ("(" parameters ")" ("{" statements "}")?)?
            | "$" "{" WORD "}"
            | "[" WORD "]"                      a capture, for a bare word only
            | "[" (value ("," value)*)? "]"     an array
            | "(" value ")" ("->" "(" value ")")?
```

where parameters are all named or all positional and the last semicolon of some statements may be
left out. A `Derivation` is a derivation tree of it, with its tokens (`tokens`) and with what it
denotes (`meaning`). Both are read off the tree alone, without the parser.

The parser's own grammar `Derives` has everything that is derived here (`Derivation.derives`), and
more: the name of a parameter may stand in parentheses there. This is the only difference. It shows
in the tokens, as a `)` directly in front of an `=`, which no derivation has
(`Derivation.detached`); and without it, whatever the parser's grammar has is derived
(`Derives.isDerived`).
-/

namespace TermRegistry

/-! ### Words -/

/-- **Words**, bare or quoted. -/
inductive Word
  | bare (text : String)
  | quoted (text : String)
deriving DecidableEq, Repr

namespace Word

/-- A word as a token. -/
def token : Word → Token
  | bare s => .word s
  | quoted s => .quoted s

/-- The text of a word. -/
def text : Word → String
  | bare s | quoted s => s

@[simp] theorem text?_token (w : Word) : w.token.text? = some w.text := by cases w <;> rfl

theorem token_ne_equals (w : Word) : w.token ≠ .equals := by cases w <;> nofun

/-- The tokens with a text are those of words. -/
theorem exists_of_text? {k : Token} {s : String} (h : k.text? = some s) :
    ∃ w : Word, w.token = k ∧ w.text = s := by
  cases k with
  | word t => exact ⟨.bare t, rfl, Option.some.inj h⟩
  | quoted t => exact ⟨.quoted t, rfl, Option.some.inj h⟩
  | _ => cases h

theorem exists_of_texts? {ks : List Token} {ss : List String}
    (h : ks.map Token.text? = ss.map some) :
    ∃ ws : List Word, ws.map token = ks ∧ ws.map text = ss := by
  induction ks generalizing ss with
  | nil => exact ⟨[], rfl, (List.map_eq_nil_iff.1 h.symm).symm⟩
  | cons k ks ih =>
    obtain ⟨s, ss, rfl, hk, hks⟩ := List.map_eq_cons_iff.1 h.symm
    obtain ⟨w, rfl, rfl⟩ := exists_of_text? hk.symm
    obtain ⟨ws, rfl, rfl⟩ := ih hks.symm
    exact ⟨w :: ws, rfl, rfl⟩

end Word

/-- **The words before the `=` of a statement**: its name, and any words in front of it. -/
structure Header where
  before : List Word
  name : Word
deriving DecidableEq, Repr

namespace Header

def tokens (h : Header) : List Token := h.before.map Word.token ++ [h.name.token, .equals]

/-- The label of the statement: the word in front of its name is its declaration type. -/
def label (h : Header) : Label :=
  match h.before.getLast? with
  | some type => .typed type.text h.name.text
  | none => .named h.name.text

/-- The modifiers of the statement: all words but its name and its declaration type, in order. -/
def modifiers (h : Header) : List String := h.before.dropLast.map Word.text

end Header

/-! ### Derivation trees -/

/-- The kinds of phrases of the documented grammar. -/
inductive Phrase.Kind
  | value
  | primary
  /-- `value ("," value)*` -/
  | items
  /-- `WORD "=" value ("," WORD "=" value)*` -/
  | assignments
  | parameters
  | statements
deriving DecidableEq, Repr

/-- **Derivation trees** of the documented grammar. -/
inductive Derivation : Phrase.Kind → Type
  | single (p : Derivation .primary) : Derivation .value
  | composition (p : Derivation .primary) (v : Derivation .value) : Derivation .value
  | word (w : Word) : Derivation .primary
  | call (name : Word) (parameters : Derivation .parameters) : Derivation .primary
  | callWith (name : Word) (parameters : Derivation .parameters)
      (internal : Derivation .statements) : Derivation .primary
  | reference (name : Word) : Derivation .primary
  | capture (name : String) : Derivation .primary
  | emptyArray : Derivation .primary
  | array (items : Derivation .items) : Derivation .primary
  | parenthesized (v : Derivation .value) : Derivation .primary
  | rule (source target : Derivation .value) : Derivation .primary
  | item (v : Derivation .value) : Derivation .items
  | moreItems (v : Derivation .value) (others : Derivation .items) : Derivation .items
  | assignment (name : Word) (v : Derivation .value) : Derivation .assignments
  | moreAssignments (name : Word) (v : Derivation .value) (others : Derivation .assignments) :
      Derivation .assignments
  | noParameters : Derivation .parameters
  | positional (items : Derivation .items) : Derivation .parameters
  | named (assignments : Derivation .assignments) : Derivation .parameters
  | noStatements : Derivation .statements
  /-- The last statement, without its semicolon. -/
  | lastStatement (header : Header) (v : Derivation .value) : Derivation .statements
  | statement (header : Header) (v : Derivation .value) (others : Derivation .statements) :
      Derivation .statements

/-- What the phrases of a kind denote. -/
abbrev Phrase.Kind.Meaning : Phrase.Kind → Type
  | value | primary => Term
  | items => List Term
  | assignments | parameters | statements => List (Entry Term)

/-- What is denoted, as a phrase of the parser's grammar. -/
def Phrase.Kind.phrase : (k : Phrase.Kind) → k.Meaning → Phrase
  | value => .value
  | primary => .primary
  | items => .items
  | assignments | parameters => .parameters
  | statements => .statements

namespace Derivation

/-- **The tokens of a derivation**: those at its leaves, from left to right. -/
def tokens : {k : Phrase.Kind} → Derivation k → List Token
  | _, single p => p.tokens
  | _, composition p v => p.tokens ++ .compose :: v.tokens
  | _, word w => [w.token]
  | _, call name ps => name.token :: .leftParen :: ps.tokens ++ [.rightParen]
  | _, callWith name ps ss =>
    name.token :: .leftParen :: ps.tokens ++ .rightParen :: .leftBrace :: ss.tokens ++ [.rightBrace]
  | _, reference name => [.dollar, .leftBrace, name.token, .rightBrace]
  | _, capture name => [.leftBracket, .word name, .rightBracket]
  | _, emptyArray => [.leftBracket, .rightBracket]
  | _, array items => .leftBracket :: items.tokens ++ [.rightBracket]
  | _, parenthesized v => .leftParen :: v.tokens ++ [.rightParen]
  | _, rule s t =>
    .leftParen :: s.tokens ++ .rightParen :: .arrow :: .leftParen :: t.tokens ++ [.rightParen]
  | _, item v => v.tokens
  | _, moreItems v vs => v.tokens ++ .comma :: vs.tokens
  | _, assignment name v => name.token :: .equals :: v.tokens
  | _, moreAssignments name v others =>
    name.token :: .equals :: v.tokens ++ .comma :: others.tokens
  | _, noParameters => []
  | _, positional items => items.tokens
  | _, named assignments => assignments.tokens
  | _, noStatements => []
  | _, lastStatement header v => header.tokens ++ v.tokens
  | _, statement header v others => header.tokens ++ v.tokens ++ .semicolon :: others.tokens

/-- The word that some items consist of, if they are nothing but one bare word. -/
def bareWord? : Derivation .items → Option String
  | item (single (word (.bare s))) => some s
  | _ => none

/-- **What a derivation denotes.** Compositions are nested to the right, and a bare word in brackets
is a capture however it is derived. -/
def meaning : {k : Phrase.Kind} → Derivation k → k.Meaning
  | _, single p => p.meaning
  | _, composition p v => Term.composite p.meaning v.meaning
  | _, word w => Term.text w.text
  | _, call name ps => Term.call name.text ⟨ps.meaning, .parameters⟩ none
  | _, callWith name ps ss => Term.call name.text ⟨ps.meaning, .parameters⟩ (some ss.meaning)
  | _, reference name => Term.reference name.text
  | _, capture name => Term.capture name
  | _, emptyArray => Term.array []
  | _, array items =>
    match items.bareWord? with
    | some name => Term.capture name
    | none => Term.array items.meaning
  | _, parenthesized v => v.meaning
  | _, rule s t => Term.rule s.meaning t.meaning
  | _, item v => [v.meaning]
  | _, moreItems v others => v.meaning :: others.meaning
  | _, assignment name v => [⟨.named name.text, [], v.meaning⟩]
  | _, moreAssignments name v others => ⟨.named name.text, [], v.meaning⟩ :: others.meaning
  | _, noParameters => []
  | _, positional items => items.meaning.map fun t ↦ ⟨.positional, [], t⟩
  | _, named assignments => assignments.meaning
  | _, noStatements => []
  | _, lastStatement header v => [⟨header.label, header.modifiers, v.meaning⟩]
  | _, statement header v others =>
    ⟨header.label, header.modifiers, v.meaning⟩ :: others.meaning

end Derivation

/-! ### Headers and headings -/

theorem Header.heading (h : Header) : Heading h.tokens h.label h.modifiers := by
  obtain ⟨before, name⟩ := h
  rcases List.eq_nil_or_concat before with rfl | ⟨before, type, rfl⟩
  · exact .named name.text?_token
  · have htype : (before ++ [type]).getLast? = some type := List.getLast?_concat
    have hwords : (before.map Word.token).map Token.text? = (before.map Word.text).map some := by
      rw [List.map_map, List.map_map]
      exact List.map_congr_left fun w _ ↦ w.text?_token
    rw [tokens, label, modifiers, List.concat_eq_append, htype, List.dropLast_concat,
      List.map_append, List.append_assoc]
    exact .typed hwords type.text?_token name.text?_token

/-- Every heading is made of the words of a header. -/
theorem Heading.exists_header {w : List Token} {label : Label} {modifiers : List String}
    (h : Heading w label modifiers) :
    ∃ header : Header, header.tokens = w ∧ header.label = label ∧ header.modifiers = modifiers := by
  cases h with
  | named h =>
    obtain ⟨name, rfl, rfl⟩ := Word.exists_of_text? h
    exact ⟨⟨[], name⟩, rfl, rfl, rfl⟩
  | typed hs hv hw =>
    obtain ⟨before, rfl, rfl⟩ := Word.exists_of_texts? hs
    obtain ⟨type, rfl, rfl⟩ := Word.exists_of_text? hv
    obtain ⟨name, rfl, rfl⟩ := Word.exists_of_text? hw
    refine ⟨⟨before ++ [type], name⟩, ?_, ?_, ?_⟩
    · rw [Header.tokens, List.map_append, List.append_assoc]
      rfl
    · rw [Header.label, List.getLast?_concat]
    · rw [Header.modifiers, List.dropLast_concat]

namespace Derivation

variable {k : Phrase.Kind}

/-! ### What is derived is a phrase -/

/-- Items that are one bare word have no other token. -/
theorem tokens_of_bareWord? {items : Derivation .items} {name : String}
    (h : items.bareWord? = some name) : items.tokens = [.word name] := by
  rw [bareWord?.eq_def] at h
  split at h
  · cases h
    rfl
  · cases h

/-- A single token is derived as a word. -/
theorem eq_word_of_tokens {p : Derivation .primary} {t : Token} (h : p.tokens = [t]) :
    ∃ w : Word, p = word w ∧ w.token = t := by
  cases p with
  | word w => exact ⟨w, rfl, (List.cons.inj h).1⟩
  | _ => simp [tokens] at h

theorem tokens_ne_nil (p : Derivation .primary) : p.tokens ≠ [] := by
  cases p <;> exact List.cons_ne_nil _ _

/-- Items whose only token is a bare word are this word. -/
theorem bareWord?_of_tokens {items : Derivation .items} {name : String}
    (h : items.tokens = [.word name]) : items.bareWord? = some name := by
  -- Two phrases with a mark between them have more than one token.
  have hlong {u v : List Token} {t : Token} (hu : u ≠ []) : u ++ t :: v ≠ [.word name] := by
    intro h
    have := congrArg List.length h
    have hpos := List.length_pos_of_ne_nil hu
    simp at this
    omega
  cases items with
  | item v =>
    cases v with
    | single p =>
      obtain ⟨w, rfl, hw⟩ := eq_word_of_tokens h
      cases w with
      | bare s =>
        cases hw
        rfl
      | quoted s => cases hw
    | composition p v => exact absurd h (hlong p.tokens_ne_nil)
  | moreItems v others =>
    refine absurd h (hlong ?_)
    cases v with
    | single p => exact p.tokens_ne_nil
    | composition p v => exact List.append_ne_nil_of_left_ne_nil p.tokens_ne_nil _

/-- Assignments denote named entries, at least one. -/
theorem meaning_assignments : (d : Derivation .assignments) →
    d.meaning ≠ [] ∧ ∀ e ∈ d.meaning, e.name?.isSome = true
  | assignment name v => ⟨List.cons_ne_nil _ _, List.forall_mem_singleton.2 rfl⟩
  | moreAssignments name v others =>
    ⟨List.cons_ne_nil _ _, List.forall_mem_cons.2 ⟨rfl, (meaning_assignments others).2⟩⟩

/-- Items are parameters without names. -/
theorem derives_positional {w : List Token} {ts : List Term} (h : Derives w (.items ts)) :
    Derives w (.parameters (ts.map fun t ↦ ⟨.positional, [], t⟩)) := by
  generalize hp : Phrase.items ts = p at h
  induction h generalizing ts with
  | item h _ =>
    cases hp
    exact .lastParameter (.positional h)
  | @moreItems _ _ t ts h hw _ ih =>
    cases hp
    have hu (us : List Term) : Listing.Uniform (us.map fun t ↦ ⟨.positional, [], t⟩) :=
      .inr (List.forall_mem_map.2 fun _ _ ↦ rfl)
    cases ts with
    | nil => cases hw
    | cons u us => exact .moreParameters (.positional h) (ih rfl) (hu (t :: u :: us))
  | _ => cases hp

/-- **What is derived is a phrase** of the parser's grammar, with the same meaning. -/
theorem derives (d : Derivation k) : Derives d.tokens (k.phrase d.meaning) := by
  induction d with
  | single p ih => exact .single ih
  | composition p v ihp ihv => exact .composition ihp ihv
  | word w => exact .text w.text?_token
  | call name ps ih => exact .call name.text?_token ih
  | callWith name ps ss ihp ihs => exact .callWith name.text?_token ihp ihs
  | reference name => exact .reference name.text?_token
  | capture name => exact .capture name
  | emptyArray => exact .emptyArray
  | array items ih =>
    -- One bare word between square brackets is a capture and not an array.
    cases hword : items.bareWord? with
    | some name =>
      rw [tokens, meaning, hword, tokens_of_bareWord? hword]
      exact .capture name
    | none =>
      rw [tokens, meaning, hword]
      refine .array ih fun name hname ↦ ?_
      rw [bareWord?_of_tokens hname] at hword
      cases hword
  | parenthesized v ih => exact .parenthesized ih
  | rule s t ihs iht => exact .rule ihs iht
  | item v ih => exact .item ih
  | moreItems v others ihv ih => exact .moreItems ihv ih
  | assignment name v ih => exact .lastParameter (.named (.single (.text name.text?_token)) ih)
  | moreAssignments name v others ihv ih =>
    obtain ⟨hne, hnamed⟩ := others.meaning_assignments
    obtain ⟨e, es, hothers⟩ := List.exists_cons_of_ne_nil hne
    rw [hothers] at hnamed
    have hfirst := Derives.named (.single (.text name.text?_token)) ihv
    rw [meaning, hothers]
    exact .moreParameters hfirst (hothers ▸ ih) (.inl (List.forall_mem_cons.2 ⟨rfl, hnamed⟩))
  | noParameters => exact .noParameters
  | positional items ih => exact derives_positional ih
  | named assignments ih => exact ih
  | noStatements => exact .noStatements
  | lastStatement header v ih => exact .lastStatement header.heading ih
  | statement header v others ihv ih => exact .moreStatements header.heading ihv ih

end Derivation

/-! ### Names in parentheses -/

/-- No `)` stands directly in front of an `=`. -/
def NamesBare (w : List Token) : Prop := ¬ [.rightParen, .equals] <:+: w

instance (w : List Token) : Decidable (NamesBare w) := inferInstanceAs (Decidable (¬ _))

namespace NamesBare

variable {v w : List Token} {k : Token}

theorem left (h : NamesBare (v ++ w)) : NamesBare v :=
  fun hi ↦ h (hi.trans (List.prefix_append v w).isInfix)

theorem right (h : NamesBare (v ++ w)) : NamesBare w :=
  fun hi ↦ h (hi.trans (List.suffix_append v w).isInfix)

theorem tail (h : NamesBare (k :: w)) : NamesBare w := right (v := [k]) h

end NamesBare

/-- No two neighbours are `)` and `=`. -/
theorem namesBare_iff_isChain {w : List Token} :
    NamesBare w ↔ w.IsChain fun a b ↦ ¬ (a = .rightParen ∧ b = .equals) := by
  rw [List.isChain_iff_forall_rel_of_append_cons_cons]
  constructor
  · rintro h a b u v rfl ⟨rfl, rfl⟩
    exact h ⟨u, v, List.append_assoc u _ v⟩
  · rintro h ⟨u, v, rfl⟩
    exact h (List.append_assoc u _ v) ⟨rfl, rfl⟩

/-- **Detached tokens**: names are bare in them, and still are if others stand in front. -/
structure Detached (w : List Token) : Prop where
  bare : NamesBare w
  head : w.head? ≠ some .equals

namespace Detached

variable {v w : List Token} {k : Token}

theorem nil : Detached [] := ⟨by decide, nofun⟩

theorem append (hv : Detached v) (hw : Detached w) : Detached (v ++ w) := by
  refine ⟨?_, ?_⟩
  · rw [namesBare_iff_isChain]
    refine List.isChain_append.2 ⟨namesBare_iff_isChain.1 hv.bare, namesBare_iff_isChain.1 hw.bare,
      fun a _ b hb hab ↦ hw.head ?_⟩
    rw [← hab.2]
    exact hb
  · cases v with
    | nil => exact hw.head
    | cons k v => exact hv.head

theorem singleton (h : k ≠ .equals) : Detached [k] :=
  ⟨namesBare_iff_isChain.2 (List.isChain_singleton k), fun hk ↦ h (Option.some.inj hk)⟩

theorem cons (h : k ≠ .equals) (hw : Detached w) : Detached (k :: w) := (singleton h).append hw

theorem words (ws : List Word) : Detached (ws.map Word.token) := by
  induction ws with
  | nil => exact .nil
  | cons w ws ih => exact .cons w.token_ne_equals ih

/-- A word may stand in front of an `=`. -/
theorem assignment (name : Word) (hw : Detached w) : Detached (name.token :: .equals :: w) := by
  have hname : name.token ≠ .rightParen := by cases name <;> nofun
  have hbare : NamesBare [name.token, .equals] :=
    namesBare_iff_isChain.2 (List.isChain_pair.2 fun h ↦ hname h.1)
  exact append ⟨hbare, fun h ↦ name.token_ne_equals (Option.some.inj h)⟩ hw

theorem header (h : Header) (hw : Detached w) : Detached (h.tokens ++ w) := by
  rw [Header.tokens, List.append_assoc]
  exact (words h.before).append (hw.assignment h.name)

end Detached

/-- **Derived tokens are detached**: a name in them is one word. -/
theorem Derivation.detached {k : Phrase.Kind} (d : Derivation k) : Detached d.tokens := by
  induction d with
  | single p ih | item v ih | positional items ih | named assignments ih => exact ih
  | composition p v ihp ihv | moreItems v others ihp ihv => exact ihp.append (ihv.cons nofun)
  | word w => exact .singleton w.token_ne_equals
  | call name ps ih =>
    exact .cons name.token_ne_equals (.cons nofun (ih.append (.singleton nofun)))
  | callWith name ps ss ihp ihs =>
    rw [tokens, List.append_assoc]
    exact .cons name.token_ne_equals (.cons nofun (ihp.append (.cons nofun (.cons nofun
      (ihs.append (.singleton nofun))))))
  | reference name =>
    exact .cons nofun (.cons nofun (.cons name.token_ne_equals (.singleton nofun)))
  | capture name => exact .cons nofun (.cons nofun (.singleton nofun))
  | emptyArray => exact .cons nofun (.singleton nofun)
  | array items ih => exact .cons nofun (ih.append (.singleton nofun))
  | parenthesized v ih => exact .cons nofun (ih.append (.singleton nofun))
  | rule s t ihs iht =>
    rw [tokens, List.append_assoc]
    exact .cons nofun (ihs.append (.cons nofun (.cons nofun (.cons nofun
      (iht.append (.singleton nofun))))))
  | assignment name v ih => exact ih.assignment name
  | moreAssignments name v others ihv ih =>
    exact (ihv.assignment name).append (ih.cons nofun)
  | noParameters | noStatements => exact .nil
  | lastStatement header v ih => exact ih.header header
  | statement header v others ihv ih =>
    exact (ihv.header header).append (ih.cons nofun)

/-! ### Phrases with bare names are derived -/

/-- Whether some tokens are derived as a phrase, by the documented grammar. -/
def Phrase.IsDerived (w : List Token) : Phrase → Prop
  | value t => ∃ d : Derivation .value, d.tokens = w ∧ d.meaning = t
  | primary t => ∃ d : Derivation .primary, d.tokens = w ∧ d.meaning = t
  | items ts => ∃ d : Derivation .items, d.tokens = w ∧ d.meaning = ts
  | parameter e =>
    (∃ d : Derivation .value, d.tokens = w ∧ ⟨.positional, [], d.meaning⟩ = e) ∨
      ∃ (name : Word) (d : Derivation .value),
        name.token :: .equals :: d.tokens = w ∧ ⟨.named name.text, [], d.meaning⟩ = e
  | parameters es => ∃ d : Derivation .parameters, d.tokens = w ∧ d.meaning = es
  | statements es => ∃ d : Derivation .statements, d.tokens = w ∧ d.meaning = es

/-- A value that denotes a text is a word, or it ends with a parenthesis. -/
theorem Derives.word_or_paren {w : List Token} {s : String} (h : Derives w (.value (.text s))) :
    (∃ name : Word, w = [name.token] ∧ name.text = s) ∨ ∃ v, w = v ++ [.rightParen] := by
  cases h with
  | single h =>
    cases h with
    | text h =>
      obtain ⟨name, rfl, rfl⟩ := Word.exists_of_text? h
      exact .inl ⟨name, rfl, rfl⟩
    | parenthesized h => exact .inr ⟨_, rfl⟩

/-- One more parameter in front of parameters that are as named as it is. -/
theorem Phrase.IsDerived.moreParameters {v w : List Token} {e d : Entry Term}
    {es : List (Entry Term)} (h : (parameter e).IsDerived v)
    (hw : (parameters (d :: es)).IsDerived w) (hu : Listing.Uniform (e :: d :: es)) :
    (parameters (e :: d :: es)).IsDerived (v ++ .comma :: w) := by
  obtain ⟨ps, rfl, hps⟩ := hw
  have hboth : e.name?.isSome = d.name?.isSome := by
    have hd : d ∈ e :: d :: es := List.mem_cons_of_mem e List.mem_cons_self
    rcases hu with hu | hu
    · rw [hu e List.mem_cons_self, hu d hd]
    · rw [Option.isNone_iff_eq_none.1 (hu e List.mem_cons_self),
        Option.isNone_iff_eq_none.1 (hu d hd)]
  -- The rest decides whether the parameters are named, and the first one is as named as the rest
  -- is.
  cases ps with
  | noParameters => cases hps
  | positional items =>
    have hd : d.name? = none := by
      obtain ⟨t, ts, -, rfl, -⟩ := List.map_eq_cons_iff.1 hps
      rfl
    rcases h with ⟨u, rfl, rfl⟩ | ⟨name, u, -, rfl⟩
    · exact ⟨.positional (.moreItems u items), rfl, congrArg (List.cons _) hps⟩
    · rw [hd] at hboth
      cases hboth
  | named assignments =>
    have hd : d.name?.isSome = true := by
      refine assignments.meaning_assignments.2 d ?_
      rw [show assignments.meaning = d :: es from hps]
      exact List.mem_cons_self
    rcases h with ⟨u, -, rfl⟩ | ⟨name, u, rfl, rfl⟩
    · rw [hd] at hboth
      cases hboth
    · exact ⟨.named (.moreAssignments name u assignments), rfl, congrArg (List.cons _) hps⟩

/-- **A phrase with bare names is derived.** -/
theorem Derives.isDerived {w : List Token} {p : Phrase} (h : Derives w p) (hw : NamesBare w) :
    p.IsDerived w := by
  induction h with
  | single _ ih =>
    obtain ⟨p, rfl, rfl⟩ := ih hw
    exact ⟨.single p, rfl, rfl⟩
  | composition _ _ ihf ihg =>
    obtain ⟨p, rfl, rfl⟩ := ihf hw.left
    obtain ⟨v, rfl, rfl⟩ := ihg hw.right.tail
    exact ⟨.composition p v, rfl, rfl⟩
  | text h =>
    obtain ⟨w, rfl, rfl⟩ := Word.exists_of_text? h
    exact ⟨.word w, rfl, rfl⟩
  | reference h =>
    obtain ⟨w, rfl, rfl⟩ := Word.exists_of_text? h
    exact ⟨.reference w, rfl, rfl⟩
  | capture name => exact ⟨.capture name, rfl, rfl⟩
  | emptyArray => exact ⟨.emptyArray, rfl, rfl⟩
  | array _ hword ih =>
    obtain ⟨items, rfl, rfl⟩ := ih hw.left.tail
    refine ⟨.array items, rfl, ?_⟩
    cases hitems : items.bareWord? with
    | some name => exact absurd (Derivation.tokens_of_bareWord? hitems) (hword name)
    | none => rw [Derivation.meaning, hitems]
  | parenthesized _ ih =>
    obtain ⟨v, rfl, rfl⟩ := ih hw.left.tail
    exact ⟨.parenthesized v, rfl, rfl⟩
  | rule _ _ ihs iht =>
    rw [List.append_assoc] at hw
    obtain ⟨s, rfl, rfl⟩ := ihs hw.left.tail
    obtain ⟨t, rfl, rfl⟩ := iht hw.right.tail.tail.tail.left
    exact ⟨.rule s t, rfl, rfl⟩
  | call h _ ih =>
    obtain ⟨name, rfl, rfl⟩ := Word.exists_of_text? h
    obtain ⟨ps, rfl, rfl⟩ := ih hw.left.tail.tail
    exact ⟨.call name ps, rfl, rfl⟩
  | callWith h _ _ ihv ihw =>
    rw [List.append_assoc] at hw
    obtain ⟨name, rfl, rfl⟩ := Word.exists_of_text? h
    obtain ⟨ps, rfl, rfl⟩ := ihv hw.left.tail.tail
    obtain ⟨ss, rfl, rfl⟩ := ihw hw.right.tail.tail.left
    exact ⟨.callWith name ps ss, rfl, rfl⟩
  | item _ ih =>
    obtain ⟨v, rfl, rfl⟩ := ih hw
    exact ⟨.item v, rfl, rfl⟩
  | moreItems _ _ ih ihw =>
    obtain ⟨v, rfl, rfl⟩ := ih hw.left
    obtain ⟨items, rfl, rfl⟩ := ihw hw.right.tail
    exact ⟨.moreItems v items, rfl, rfl⟩
  | positional _ ih =>
    obtain ⟨v, rfl, rfl⟩ := ih hw
    exact .inl ⟨v, rfl, rfl⟩
  | named hname _ _ ih =>
    obtain ⟨v, rfl, rfl⟩ := ih hw.right.tail
    rcases hname.word_or_paren with ⟨name, rfl, rfl⟩ | ⟨u, rfl⟩
    · exact .inr ⟨name, v, rfl, rfl⟩
    -- A parenthesis would stand in front of the `=`.
    · exact absurd ⟨u, v.tokens, by simp⟩ hw
  | noParameters => exact ⟨.noParameters, rfl, rfl⟩
  | lastParameter _ ih =>
    rcases ih hw with ⟨v, rfl, rfl⟩ | ⟨name, v, rfl, rfl⟩
    · exact ⟨.positional (.item v), rfl, rfl⟩
    · exact ⟨.named (.assignment name v), rfl, rfl⟩
  | moreParameters _ _ hu ih ihw => exact .moreParameters (ih hw.left) (ihw hw.right.tail) hu
  | noStatements => exact ⟨.noStatements, rfl, rfl⟩
  | lastStatement h _ ih =>
    obtain ⟨header, rfl, rfl, rfl⟩ := h.exists_header
    obtain ⟨v, rfl, rfl⟩ := ih hw.right
    exact ⟨.lastStatement header v, rfl, rfl⟩
  | moreStatements h _ _ ih ihw =>
    obtain ⟨header, rfl, rfl, rfl⟩ := h.exists_header
    obtain ⟨v, rfl, rfl⟩ := ih hw.left.right
    obtain ⟨others, rfl, rfl⟩ := ihw hw.right.tail
    exact ⟨.statement header v others, rfl, rfl⟩

end TermRegistry
