import TermRegistry.Proofs.Grammar
import TermRegistry.Proofs.Parsing.Outcome

/-!
# The parser reads every phrase

What the grammar derives, the parser reads, whatever stands behind it, as long as that cannot
continue the phrase. `Accepted` says this for each kind of phrase, and there is one lemma for each
rule of the grammar: if the parts of a phrase are read, so is the whole. `accepted_of_derives` puts
them together by one induction on the derivation.

**What may follow.** A primary is continued by `(`, `{` and `->`, a value also by `o`, and a
parameter by `=`. Items, parameters and statements are read up to the mark that closes them, so
these kinds are accepted in front of that mark.
-/

namespace TermRegistry

namespace Token

/-- Whether a token can go on with a primary: with a call, an internal listing or a rule. -/
def continuesPrimary : Token → Bool
  | leftParen | leftBrace | arrow => true
  | _ => false

/-- Whether a token can go on with a value: also with a composition. -/
def continuesValue : Token → Bool
  | compose => true
  | k => k.continuesPrimary

/-- What cannot go on with a value cannot go on with a primary. -/
theorem continuesPrimary_of_continuesValue {k : Token} (h : k.continuesValue = false) :
    k.continuesPrimary = false := by
  cases k <;> first | rfl | cases h

end Token

namespace Parse.Outcome

/-- The tokens `w` are read as a phrase, whatever stands behind them that cannot continue it. -/
def Accepted (e : Ending) (w : List Token) : Phrase → Prop
  | .value t => ∀ (ls rest : List Located) (k : Token), ls.map (·.token) = w →
      peek e rest = .ok k → k.continuesValue = false → value e (ls ++ rest) = .ok (t, rest)
  | .primary t => ∀ (ls rest : List Located) (k : Token), ls.map (·.token) = w →
      peek e rest = .ok k → k.continuesPrimary = false →
        primary e (ls ++ rest) = .ok (t, rest)
  | .items ts => ∀ (ls rest : List Located) (p : Position), ls.map (·.token) = w →
      items e (ls ++ ⟨.rightBracket, p⟩ :: rest) = .ok (ts, rest)
  | .parameter entry => ∀ (ls rest : List Located) (k : Token), ls.map (·.token) = w →
      peek e rest = .ok k → k.continuesValue = false → k ≠ .equals →
        parameter e (ls ++ rest) = .ok (entry, rest)
  | .parameters es => es ≠ [] → ∀ (before : List (Entry Term)) (ls rest : List Located) (k : Token),
      Listing.Uniform (before ++ es) → ls.map (·.token) = w →
        peek e rest = .ok k → k = .rightParen ∨ k = .endOfInput →
          moreParameters e ⟨before, .parameters⟩ (ls ++ rest) =
            .ok (⟨before ++ es, .parameters⟩, rest)
  | .statements es => ∀ (ls rest : List Located) (k : Token), ls.map (·.token) = w →
      peek e rest = .ok k → k = .rightBrace ∨ k = .endOfInput →
        statements e (ls ++ rest) = .ok (es, rest)

variable {e : Ending} {u v w : List Token}

/-! ### Values -/

/-- A primary is read as a value if no `o` follows. -/
theorem Accepted.single {t : Term} (h : Accepted e w (.primary t)) : Accepted e w (.value t) := by
  intro ls rest k hls hk hstop
  have hcompose : k ≠ .compose := by
    rintro rfl
    cases hstop
  rw [value_eq, h ls rest k hls hk (Token.continuesPrimary_of_continuesValue hstop)]
  show chain e t rest = _
  rw [chain_eq, taking_eq_none hk hcompose]
  rfl

/-- **A composition is read**, with its second operand as a value. -/
theorem Accepted.composition {f g : Term} (hf : Accepted e v (.primary f))
    (hg : Accepted e w (.value g)) :
    Accepted e (v ++ .compose :: w) (.value (.composite f g)) := by
  intro ls rest k hls hk hstop
  obtain ⟨ls, ms, rfl, hv, hms⟩ := List.map_eq_append_iff.1 hls
  obtain ⟨⟨_, p⟩, ms, rfl, rfl, hw⟩ := List.map_eq_cons_iff.1 hms
  rw [List.append_assoc, value_eq, hf ls _ .compose hv rfl rfl]
  show chain e f (⟨.compose, p⟩ :: (ms ++ rest)) = _
  rw [chain_eq, taking_cons, if_pos rfl]
  show (value e (ms ++ rest)).map _ = _
  rw [hg ms rest k hw hk hstop]
  rfl

/-- A word is read as a text if no parenthesis follows. -/
theorem Accepted.text {k : Token} {s : String} (h : k.text? = some s) :
    Accepted e [k] (.primary (.text s)) := by
  intro ls rest next hls hk hstop
  obtain ⟨t, rfl, rfl⟩ := List.map_eq_singleton_iff.1 hls
  have hparen : next ≠ .leftParen := by
    rintro rfl
    cases hstop
  rw [List.singleton_append, primary_word h, called_eq, taking_eq_none hk hparen]
  rfl

/-- A reference is read whatever follows. -/
theorem Accepted.reference {k : Token} {name : String} (h : k.text? = some name) :
    Accepted e [.dollar, .leftBrace, k, .rightBrace] (.primary (.reference name)) := by
  intro ls rest next hls _ _
  obtain ⟨⟨_, p⟩, ls, rfl, rfl, h₁⟩ := List.map_eq_cons_iff.1 hls
  obtain ⟨⟨_, q⟩, ls, rfl, rfl, h₂⟩ := List.map_eq_cons_iff.1 h₁
  obtain ⟨t, ls, rfl, rfl, h₃⟩ := List.map_eq_cons_iff.1 h₂
  obtain ⟨⟨_, r⟩, rfl, rfl⟩ := List.map_eq_singleton_iff.1 h₃
  simp only [List.cons_append, List.nil_append]
  rw [primary_dollar, expect_cons]
  simp only [Except.bind]
  rw [referenceName_cons h]
  rfl

/-- A value in parentheses is read as itself if no arrow follows. -/
theorem Accepted.parenthesized {t : Term} (h : Accepted e w (.value t)) :
    Accepted e (.leftParen :: w ++ [.rightParen]) (.primary t) := by
  intro ls rest k hls hk hstop
  obtain ⟨⟨_, p⟩, ls, rfl, rfl, h₁⟩ := List.map_eq_cons_iff.1 hls
  obtain ⟨ls, ms, rfl, hw, h₂⟩ := List.map_eq_append_iff.1 h₁
  obtain ⟨⟨_, q⟩, rfl, rfl⟩ := List.map_eq_singleton_iff.1 h₂
  have harrow : k ≠ .arrow := by
    rintro rfl
    cases hstop
  simp only [List.cons_append, List.append_assoc, List.nil_append]
  rw [primary_paren, h ls _ .rightParen hw rfl rfl]
  simp only [Except.bind]
  rw [expect_cons]
  show target e t rest = _
  rw [target, taking_eq_none hk harrow]
  rfl

/-- **A rule is read** as two values in parentheses. -/
theorem Accepted.rule {s t : Term} (hs : Accepted e v (.value s)) (ht : Accepted e w (.value t)) :
    Accepted e (.leftParen :: v ++ .rightParen :: .arrow :: .leftParen :: w ++ [.rightParen])
      (.primary (.rule s t)) := by
  intro ls rest k hls _ _
  simp only [List.cons_append, List.append_assoc] at hls
  obtain ⟨⟨_, p⟩, ls, rfl, rfl, h₁⟩ := List.map_eq_cons_iff.1 hls
  obtain ⟨ls, ms, rfl, hv, h₂⟩ := List.map_eq_append_iff.1 h₁
  obtain ⟨⟨_, q⟩, ms, rfl, rfl, h₃⟩ := List.map_eq_cons_iff.1 h₂
  obtain ⟨⟨_, a⟩, ms, rfl, rfl, h₄⟩ := List.map_eq_cons_iff.1 h₃
  obtain ⟨⟨_, b⟩, ms, rfl, rfl, h₅⟩ := List.map_eq_cons_iff.1 h₄
  obtain ⟨ms, os, rfl, hw, h₆⟩ := List.map_eq_append_iff.1 h₅
  obtain ⟨⟨_, c⟩, rfl, rfl⟩ := List.map_eq_singleton_iff.1 h₆
  simp only [List.cons_append, List.append_assoc, List.nil_append]
  rw [primary_paren, hs ls _ .rightParen hv rfl rfl]
  simp only [Except.bind]
  rw [expect_cons]
  show target e s _ = _
  rw [target, taking_cons, if_pos rfl]
  simp only [Except.bind]
  rw [expect_cons]
  show (value e _).bind _ = _
  rw [ht ms _ .rightParen hw rfl rfl]
  rfl

/-! ### Arrays -/

/-- A bare word in brackets is read as a capture. -/
theorem Accepted.capture (name : String) :
    Accepted e [.leftBracket, .word name, .rightBracket] (.primary (.capture name)) := by
  intro ls rest k hls _ _
  obtain ⟨⟨_, p⟩, ls, rfl, rfl, h₁⟩ := List.map_eq_cons_iff.1 hls
  obtain ⟨⟨_, q⟩, ls, rfl, rfl, h₂⟩ := List.map_eq_cons_iff.1 h₁
  obtain ⟨⟨_, r⟩, rfl, rfl⟩ := List.map_eq_singleton_iff.1 h₂
  simp only [List.cons_append, List.nil_append]
  rw [primary_bracket, bracketed_eq, taking_cons, if_neg Token.noConfusion]
  show captureOrItems e _ = _
  rw [captureOrItems_word, taking_cons, if_pos rfl]
  rfl

theorem Accepted.emptyArray :
    Accepted e [.leftBracket, .rightBracket] (.primary (.array [])) := by
  intro ls rest k hls _ _
  obtain ⟨⟨_, p⟩, ls, rfl, rfl, h₁⟩ := List.map_eq_cons_iff.1 hls
  obtain ⟨⟨_, q⟩, rfl, rfl⟩ := List.map_eq_singleton_iff.1 h₁
  simp only [List.cons_append, List.nil_append]
  rw [primary_bracket, bracketed_eq, taking_cons, if_pos rfl]
  rfl

/-- A bare word in front of a closing bracket is the only item in front of it. -/
theorem items_word_close (word : String) (p q : Position) (rest : List Located) :
    items e (⟨.word word, p⟩ :: ⟨.rightBracket, q⟩ :: rest) = .ok ([.text word], rest) := by
  rw [items, value_eq, primary_word rfl, called_eq, taking_cons, if_neg Token.noConfusion]
  show ((chain e (.text word) _).bind _ : Outcome (List Term)) = _
  rw [chain_eq, taking_cons, if_neg Token.noConfusion]
  show (moreItems e _).map _ = _
  rw [moreItems_close]
  rfl

/-- Items that are not a bare word alone are read as an array. A bare word in front of items takes
a path of its own through the parser, because it may be a capture. -/
theorem captureOrItems_of_items {ts : List Term} {ls rest : List Located} {p : Position}
    (hword : ∀ name, ls.map (·.token) ≠ [.word name]) (hne : ls ≠ [])
    (h : items e (ls ++ ⟨.rightBracket, p⟩ :: rest) = .ok (ts, rest)) :
    captureOrItems e (ls ++ ⟨.rightBracket, p⟩ :: rest) = .ok (.array ts, rest) := by
  by_cases hfirst : ∃ word q ms, ls = ⟨.word word, q⟩ :: ms
  · obtain ⟨word, q, ms, rfl⟩ := hfirst
    cases ms with
    | nil => exact absurd rfl (hword word)
    | cons m ms =>
      simp only [List.cons_append] at h ⊢
      have hm : m.token ≠ .rightBracket := by
        obtain ⟨_, r⟩ := m
        rintro rfl
        -- otherwise the items would end there, with more tokens left than `rest`
        rw [items_word_close] at h
        have hrest := congrArg List.length (Prod.ext_iff.1 (Except.ok.inj h)).2
        simp only [List.length_append, List.length_cons] at hrest
        omega
      rw [captureOrItems_word, taking_cons, if_neg hm]
      show (items e _).map _ = _
      rw [h]
      rfl
  · rw [captureOrItems_eq]
    · rw [h]
      rfl
    · intro word q us hus
      cases ls with
      | nil => exact hne rfl
      | cons l ls => exact hfirst ⟨word, q, ls, by rw [(List.cons.inj hus).1]⟩

/-- **Items in brackets are read as an array**, unless they are a bare word alone. -/
theorem Accepted.array {ts : List Term} (h : Accepted e w (.items ts))
    (hword : ∀ name, w ≠ [.word name]) (hfirst : ∃ k ks, w = k :: ks ∧ k ≠ .rightBracket) :
    Accepted e (.leftBracket :: w ++ [.rightBracket]) (.primary (.array ts)) := by
  intro ls rest k hls _ _
  obtain ⟨⟨_, p⟩, ls, rfl, rfl, h₁⟩ := List.map_eq_cons_iff.1 hls
  obtain ⟨ls, ms, rfl, hw, h₂⟩ := List.map_eq_append_iff.1 h₁
  obtain ⟨⟨_, q⟩, rfl, rfl⟩ := List.map_eq_singleton_iff.1 h₂
  obtain ⟨k, ks, rfl, hk⟩ := hfirst
  obtain ⟨l, ls, rfl, rfl, hks⟩ := List.map_eq_cons_iff.1 hw
  simp only [List.cons_append, List.append_assoc, List.nil_append]
  rw [primary_bracket, bracketed_eq, taking_cons, if_neg hk]
  show captureOrItems e (l :: ls ++ ⟨.rightBracket, q⟩ :: rest) = _
  exact captureOrItems_of_items (fun name ↦ hw ▸ hword name) (List.cons_ne_nil _ _)
    (h (l :: ls) rest q hw)

/-- The last item is read up to the bracket. -/
theorem Accepted.item {t : Term} (h : Accepted e w (.value t)) : Accepted e w (.items [t]) := by
  intro ls rest p hls
  rw [items, h ls _ .rightBracket hls rfl rfl]
  show (moreItems e _).map _ = _
  rw [moreItems_close]
  rfl

/-- An item is read up to the comma, and then the others. -/
theorem Accepted.commaItems {t : Term} {ts : List Term} (h : Accepted e v (.value t))
    (hw : Accepted e w (.items ts)) : Accepted e (v ++ .comma :: w) (.items (t :: ts)) := by
  intro ls rest p hls
  obtain ⟨ls, ms, rfl, h₁, h₂⟩ := List.map_eq_append_iff.1 hls
  obtain ⟨⟨_, q⟩, ms, rfl, rfl, h₃⟩ := List.map_eq_cons_iff.1 h₂
  rw [List.append_assoc, items, h ls _ .comma h₁ rfl rfl]
  show (moreItems e (⟨.comma, q⟩ :: (ms ++ _))).map _ = _
  rw [moreItems_comma, hw ms rest p h₃]
  rfl

/-! ### Parameters -/

/-- A value is read as a parameter if no equals sign follows. -/
theorem Accepted.positional {t : Term} (h : Accepted e w (.value t)) :
    Accepted e w (.parameter ⟨.positional, [], t⟩) := by
  intro ls rest k hls hk hstop hequals
  rw [parameter_eq, h ls rest k hls hk hstop]
  show (taking e .equals rest).bind _ = _
  rw [taking_eq_none hk hequals]
  rfl

/-- A name, an equals sign and a value are read as a parameter. -/
theorem Accepted.named {name : String} {t : Term} (hv : Accepted e v (.value (.text name)))
    (hw : Accepted e w (.value t)) :
    Accepted e (v ++ .equals :: w) (.parameter ⟨.named name, [], t⟩) := by
  intro ls rest k hls hk hstop _
  obtain ⟨ls, ms, rfl, h₁, h₂⟩ := List.map_eq_append_iff.1 hls
  obtain ⟨⟨_, q⟩, ms, rfl, rfl, h₃⟩ := List.map_eq_cons_iff.1 h₂
  rw [List.append_assoc, parameter_eq, hv ls _ .equals h₁ rfl rfl]
  simp only [Except.bind, List.cons_append]
  rw [taking_cons, if_pos rfl]
  show (value e (ms ++ rest)).map _ = _
  rw [hw ms rest k h₃ hk hstop]
  rfl

/-- The last parameter is read up to the parenthesis. -/
theorem Accepted.lastParameter {entry : Entry Term} (h : Accepted e w (.parameter entry))
    (htype : entry.type? = none) : Accepted e w (.parameters [entry]) := by
  intro _ before ls rest k hu hls hk hend
  have hstop : k.continuesValue = false := by rcases hend with rfl | rfl <;> rfl
  have hequals : k ≠ .equals := by rcases hend with rfl | rfl <;> exact Token.noConfusion
  have hcomma : k ≠ .comma := by rcases hend with rfl | rfl <;> exact Token.noConfusion
  rw [moreParameters_eq, h ls rest k hls hk hstop hequals]
  simp only [Except.bind]
  rw [Listing.push?_of_uniform hu htype]
  simp only
  rw [taking_eq_none hk hcomma]

/-- A parameter is read up to the comma, and then the others, if all go together. -/
theorem Accepted.commaParameters {entry : Entry Term} {es : List (Entry Term)}
    (h : Accepted e v (.parameter entry)) (htype : entry.type? = none)
    (hw : Accepted e w (.parameters es)) (hne : es ≠ []) :
    Accepted e (v ++ .comma :: w) (.parameters (entry :: es)) := by
  intro _ before ls rest k hu hls hk hend
  obtain ⟨ls, ms, rfl, h₁, h₂⟩ := List.map_eq_append_iff.1 hls
  obtain ⟨⟨_, q⟩, ms, rfl, rfl, h₃⟩ := List.map_eq_cons_iff.1 h₂
  rw [List.append_cons] at hu
  rw [List.append_assoc, moreParameters_eq, h ls _ .comma h₁ rfl rfl Token.noConfusion]
  simp only [Except.bind, List.cons_append]
  rw [Listing.push?_of_uniform (hu.mono (List.subset_append_left _ _)) htype]
  simp only
  rw [taking_cons, if_pos rfl]
  show moreParameters e ⟨before ++ [entry], .parameters⟩ (ms ++ rest) = _
  rw [hw hne (before ++ [entry]) ms rest k hu h₃ hk hend, List.append_assoc, List.singleton_append]

/-! ### Statements -/

/-- Words in front of a heading are collected in reverse. -/
theorem heading_append {ws : List Located} {names : List String} (words : List String)
    (rest : List Located) (h : ws.map (·.token.text?) = names.map some) :
    heading e words (ws ++ rest) = heading e (names.reverse ++ words) rest := by
  induction ws generalizing names words with
  | nil =>
    cases names with
    | nil => rfl
    | cons => cases h
  | cons t ws ih =>
    cases names with
    | nil => cases h
    | cons name names =>
      obtain ⟨ht, hws⟩ := List.cons.inj h
      rw [List.cons_append, heading_word ht, ih (name :: words) hws, List.reverse_cons,
        List.append_assoc, List.singleton_append]

/-- The headings of the grammar are read. -/
theorem heading_of_heading {label : Label} {modifiers : List String} (h : Heading w label modifiers)
    {ls : List Located} (hls : ls.map (·.token) = w) (rest : List Located) :
    heading e [] (ls ++ rest) = .ok ((label, modifiers), rest) := by
  cases h with
  | named h =>
    obtain ⟨t, ls, rfl, rfl, h₁⟩ := List.map_eq_cons_iff.1 hls
    obtain ⟨⟨_, p⟩, rfl, rfl⟩ := List.map_eq_singleton_iff.1 h₁
    simp only [List.cons_append, List.nil_append]
    rw [heading_word h, heading_equals p rfl]
  | @typed ws _ v w type name hs hv hw =>
    obtain ⟨ms, ls, rfl, h₁, h₂⟩ := List.map_eq_append_iff.1 hls
    obtain ⟨t, ls, rfl, rfl, h₃⟩ := List.map_eq_cons_iff.1 h₂
    obtain ⟨u, ls, rfl, rfl, h₄⟩ := List.map_eq_cons_iff.1 h₃
    obtain ⟨⟨_, p⟩, rfl, rfl⟩ := List.map_eq_singleton_iff.1 h₄
    rw [← h₁, List.map_map] at hs
    rw [List.append_assoc, heading_append [] _ hs]
    simp only [List.cons_append, List.nil_append, List.append_nil]
    rw [heading_word hv, heading_word hw, heading_equals p rfl, List.reverse_reverse]

theorem Accepted.noStatements : Accepted e [] (.statements []) := by
  intro ls rest k hls hk hend
  obtain rfl := List.map_eq_nil_iff.1 hls
  rw [List.nil_append, statements_eq, hk]
  simp only [Except.bind]
  rw [if_pos hend]

/-- A statement is read up to the end of its value. -/
theorem statements_of_heading {label : Label} {modifiers : List String} {t : Term}
    (hu : Heading u label modifiers) (hv : Accepted e v (.value t)) {ls ms rest : List Located}
    {k : Token} (hls : ls.map (·.token) = u) (hms : ms.map (·.token) = v)
    (hk : peek e rest = .ok k) (hstop : k.continuesValue = false) :
    statements e (ls ++ (ms ++ rest)) = moreStatements e ⟨label, modifiers, t⟩ rest := by
  have hfirst : ∃ l, peek e (ls ++ (ms ++ rest)) = .ok l ∧
      ¬(l = .rightBrace ∨ l = .endOfInput) := by
    obtain ⟨l, _, s, rfl, hl⟩ := hu.exists_first
    obtain ⟨t, ls, rfl, rfl, -⟩ := List.map_eq_cons_iff.1 hls
    refine ⟨t.token, rfl, ?_⟩
    rintro (h | h) <;> rw [h] at hl <;> cases hl
  obtain ⟨l, hl, hne⟩ := hfirst
  rw [statements_eq, hl]
  simp only [Except.bind]
  rw [if_neg hne, heading_of_heading hu hls]
  simp only
  rw [hv ms rest k hms hk hstop]

/-- The last statement may end without a semicolon. -/
theorem Accepted.lastStatement {label : Label} {modifiers : List String} {t : Term}
    (hu : Heading u label modifiers) (hv : Accepted e v (.value t)) :
    Accepted e (u ++ v) (.statements [⟨label, modifiers, t⟩]) := by
  intro ls rest k hls hk hend
  obtain ⟨ls, ms, rfl, h₁, h₂⟩ := List.map_eq_append_iff.1 hls
  have hstop : k.continuesValue = false := by rcases hend with rfl | rfl <;> rfl
  have hsemicolon : k ≠ .semicolon := by rcases hend with rfl | rfl <;> exact Token.noConfusion
  rw [List.append_assoc, statements_of_heading hu hv h₁ h₂ hk hstop, moreStatements,
    taking_eq_none hk hsemicolon, hk]
  simp only [Except.bind]
  rw [if_pos hend]

/-- A statement with its semicolon is read in front of whatever follows. -/
theorem statements_semicolon {label : Label} {modifiers : List String} {t : Term}
    (hu : Heading u label modifiers) (hv : Accepted e v (.value t)) {ls : List Located}
    (hls : ls.map (·.token) = u ++ v ++ [.semicolon]) (rest : List Located) :
    statements e (ls ++ rest) =
      (statements e rest).map fun (es, us) ↦ (⟨label, modifiers, t⟩ :: es, us) := by
  obtain ⟨ls, ns, rfl, h₁, h₂⟩ := List.map_eq_append_iff.1 hls
  obtain ⟨ls, ms, rfl, h₃, h₄⟩ := List.map_eq_append_iff.1 h₁
  obtain ⟨⟨_, q⟩, rfl, rfl⟩ := List.map_eq_singleton_iff.1 h₂
  rw [List.append_assoc, List.append_assoc,
    statements_of_heading (k := .semicolon) hu hv h₃ h₄ rfl rfl, moreStatements,
    List.singleton_append, taking_cons, if_pos rfl]
  rfl

/-- A statement is read up to its semicolon, and then the others. -/
theorem Accepted.semicolonStatements {label : Label} {modifiers : List String} {t : Term}
    {es : List (Entry Term)} (hu : Heading u label modifiers) (hv : Accepted e v (.value t))
    (hw : Accepted e w (.statements es)) :
    Accepted e (u ++ v ++ .semicolon :: w) (.statements (⟨label, modifiers, t⟩ :: es)) := by
  intro ls rest k hls hk hend
  rw [List.append_cons] at hls
  obtain ⟨ls, ms, rfl, h₁, h₂⟩ := List.map_eq_append_iff.1 hls
  rw [List.append_assoc, statements_semicolon hu hv h₁, hw ms rest k h₂ hk hend]
  rfl

/-! ### Calls -/

/-- Derived parameters are read up to a closing parenthesis or the end. -/
theorem parameters_of_accepted {es : List (Entry Term)} (hd : Derives w (.parameters es))
    (h : Accepted e w (.parameters es)) {ls rest : List Located} {k : Token}
    (hls : ls.map (·.token) = w) (hk : peek e rest = .ok k)
    (hend : k = .rightParen ∨ k = .endOfInput) :
    parameters e (ls ++ rest) = .ok (⟨es, .parameters⟩, rest) := by
  rw [parameters_eq]
  by_cases hes : es = []
  · subst hes
    obtain rfl := hd.eq_nil
    obtain rfl := List.map_eq_nil_iff.1 hls
    rw [List.nil_append, hk]
    simp only [Except.bind]
    rw [if_pos hend]
  · obtain ⟨l, _, rfl, hl⟩ := hd.exists_first hes
    obtain ⟨t, ls, rfl, rfl, h₁⟩ := List.map_eq_cons_iff.1 hls
    show (if t.token = .rightParen ∨ t.token = .endOfInput then _ else _) = _
    rw [if_neg (by rintro (h | h) <;> rw [h] at hl <;> cases hl)]
    exact h hes [] (t :: ls) rest k hd.uniform hls hk hend

/-- A word and the parameters behind it are read as the head of a call. -/
theorem primary_of_parameters {k : Token} {name : String} {es : List (Entry Term)}
    (hname : k.text? = some name) (hd : Derives w (.parameters es))
    (h : Accepted e w (.parameters es)) {t : Located} {p q : Position} {ls rest : List Located}
    (ht : t.token = k) (hls : ls.map (·.token) = w) :
    primary e (t :: ⟨.leftParen, p⟩ :: (ls ++ ⟨.rightParen, q⟩ :: rest)) =
      internal e name ⟨es, .parameters⟩ rest := by
  subst ht
  rw [primary_word hname, called_eq, taking_cons, if_pos rfl]
  simp only [Except.bind]
  rw [parameters_of_accepted (k := .rightParen) hd h hls rfl (.inl rfl)]
  simp only
  rw [expect_cons]

/-- **A call is read** if no internal listing follows. -/
theorem Accepted.call {k : Token} {name : String} {es : List (Entry Term)}
    (hname : k.text? = some name) (hd : Derives w (.parameters es))
    (h : Accepted e w (.parameters es)) :
    Accepted e (k :: .leftParen :: w ++ [.rightParen])
      (.primary (.call name ⟨es, .parameters⟩ none)) := by
  intro ls rest l hls hl hstop
  simp only [List.cons_append] at hls
  obtain ⟨t, ls, rfl, ht, h₁⟩ := List.map_eq_cons_iff.1 hls
  obtain ⟨⟨_, p⟩, ls, rfl, rfl, h₂⟩ := List.map_eq_cons_iff.1 h₁
  obtain ⟨ls, ms, rfl, hw, h₃⟩ := List.map_eq_append_iff.1 h₂
  obtain ⟨⟨_, q⟩, rfl, rfl⟩ := List.map_eq_singleton_iff.1 h₃
  have hbrace : l ≠ .leftBrace := by
    rintro rfl
    cases hstop
  simp only [List.cons_append, List.append_assoc, List.nil_append]
  rw [primary_of_parameters hname hd h ht hw, internal, taking_eq_none hl hbrace]
  rfl

/-- **A call with an internal listing is read.** -/
theorem Accepted.callWith {k : Token} {name : String} {es inside : List (Entry Term)}
    (hname : k.text? = some name) (hd : Derives v (.parameters es))
    (hv : Accepted e v (.parameters es)) (hw : Accepted e w (.statements inside)) :
    Accepted e (k :: .leftParen :: v ++ .rightParen :: .leftBrace :: w ++ [.rightBrace])
      (.primary (.call name ⟨es, .parameters⟩ (some inside))) := by
  intro ls rest l hls _ _
  simp only [List.cons_append, List.append_assoc] at hls
  obtain ⟨t, ls, rfl, ht, h₁⟩ := List.map_eq_cons_iff.1 hls
  obtain ⟨⟨_, p⟩, ls, rfl, rfl, h₂⟩ := List.map_eq_cons_iff.1 h₁
  obtain ⟨ls, ms, rfl, h₃, h₄⟩ := List.map_eq_append_iff.1 h₂
  obtain ⟨⟨_, q⟩, ms, rfl, rfl, h₅⟩ := List.map_eq_cons_iff.1 h₄
  obtain ⟨⟨_, r⟩, ms, rfl, rfl, h₆⟩ := List.map_eq_cons_iff.1 h₅
  obtain ⟨ms, os, rfl, h₇, h₈⟩ := List.map_eq_append_iff.1 h₆
  obtain ⟨⟨_, s⟩, rfl, rfl⟩ := List.map_eq_singleton_iff.1 h₈
  simp only [List.cons_append, List.append_assoc, List.nil_append]
  rw [primary_of_parameters hname hd hv ht h₃, internal, taking_cons, if_pos rfl]
  simp only [Except.bind]
  rw [hw ms _ .rightBrace h₇ rfl (.inl rfl)]
  rfl

/-! ### All phrases -/

/-- **The parser reads every phrase of the grammar.** -/
theorem accepted_of_derives {p : Phrase} (h : Derives w p) : Accepted e w p := by
  induction h with
  | single _ ih => exact ih.single
  | composition _ _ ihf ihg => exact ihf.composition ihg
  | text h => exact .text h
  | reference h => exact .reference h
  | capture name => exact .capture name
  | emptyArray => exact .emptyArray
  | array h hword ih =>
    obtain ⟨k, ks, hw, hk⟩ := h.exists_first trivial
    refine ih.array hword ⟨k, ks, hw, ?_⟩
    rintro rfl
    cases hk
  | parenthesized _ ih => exact ih.parenthesized
  | rule _ _ ihs iht => exact ihs.rule iht
  | call h hd ih => exact .call h hd ih
  | callWith h hd _ ihv ihw => exact .callWith h hd ihv ihw
  | item _ ih => exact ih.item
  | moreItems _ _ ih ihw => exact ih.commaItems ihw
  | positional _ ih => exact ih.positional
  | named _ _ ihv ihw => exact ihv.named ihw
  | noParameters => exact fun hne ↦ absurd rfl hne
  | lastParameter h ih => exact ih.lastParameter h.untyped.1
  | moreParameters h _ _ ih ihw => exact ih.commaParameters h.untyped.1 ihw (List.cons_ne_nil _ _)
  | noStatements => exact .noStatements
  | lastStatement h _ ih => exact .lastStatement h ih
  | moreStatements h _ _ ih ihw => exact .semicolonStatements h ih ihw

end Parse.Outcome

end TermRegistry
