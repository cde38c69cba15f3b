import TermRegistry.Proofs.Grammar.Derivation
import TermRegistry.Proofs.Parsing

/-!
# The parser and the documented grammar

What the documented grammar derives, the parser reads, with the meaning of the derivation
(`parse_complete`): a text as a whole, and a value at the front of any tokens that do not go on with
it. The converse holds up to the names of parameters (`parse_documented_iff`). The parser takes any
value that denotes a text for a name, so it reads a word in parentheses as one too, which the
grammar does not; nothing else is read that is not derived.
-/

namespace TermRegistry

open Parse

/-! ### What continues a value -/

/-- **Tokens that continue a value**: such a token stands somewhere directly behind a value that is
the beginning of another one. -/
def Token.Continues (k : Token) : Prop :=
  ∃ (v d : Derivation .value) (us : List Token), d.tokens = v.tokens ++ k :: us

namespace Token

/-- A value is continued by a call, an internal listing, a rule or a composition, and by nothing
else. -/
theorem continues_iff {k : Token} : k.Continues ↔ k.continuesValue = true := by
  constructor
  · rintro ⟨v, d, us, hd⟩
    by_contra hk
    -- The parser would leave behind what stands after `v`, and it leaves nothing behind `d`.
    let e : Ending := ⟨default, none⟩
    let locate (ts : List Token) : List Located := ts.map (⟨·, default⟩)
    have hlocate (ts : List Token) : (locate ts).map (·.token) = ts := by
      rw [List.map_map]
      exact List.map_id ts
    have hshort := Outcome.accepted_of_derives (e := e) v.derives (locate v.tokens)
      (locate (k :: us)) k (hlocate _) rfl (Bool.eq_false_iff.2 hk)
    have hlong := Outcome.accepted_of_derives (e := e) d.derives (locate d.tokens) [] .endOfInput
      (hlocate _) rfl rfl
    have hlocated : locate d.tokens = locate v.tokens ++ locate (k :: us) := by
      rw [hd]
      exact List.map_append
    rw [List.append_nil, hlocated, hshort] at hlong
    cases (Prod.ext_iff.1 (Except.ok.inj hlong)).2
  · intro hk
    let a : Derivation .value := .single (.word (.bare "a"))
    let f : Derivation .value := .single (.call (.bare "a") .noParameters)
    let p : Derivation .value := .single (.parenthesized a)
    cases k with
    | compose => exact ⟨a, .composition (.word (.bare "a")) a, _, rfl⟩
    | leftParen => exact ⟨a, f, _, rfl⟩
    | leftBrace => exact ⟨f, .single (.callWith (.bare "a") .noParameters .noStatements), _, rfl⟩
    | arrow => exact ⟨p, .single (.rule a a), _, rfl⟩
    | _ => cases hk

end Token

/-! ### Completeness -/

/-- The tokens of a text, which holds no lexical fault. -/
def Lexed.ConsistsOf (lexed : Lexed) (w : List Token) : Prop :=
  lexed.ending.fault? = none ∧ lexed.tokens.map (·.token) = w

instance (lexed : Lexed) (w : List Token) : Decidable (lexed.ConsistsOf w) :=
  inferInstanceAs (Decidable (_ ∧ _))

theorem Lexed.ConsistsOf.isPhrase {lexed : Lexed} {k : Phrase.Kind} {d : Derivation k}
    (h : lexed.ConsistsOf d.tokens) : lexed.IsPhrase (k.phrase d.meaning) :=
  ⟨h.1, h.2 ▸ d.derives⟩

theorem Reader.value_of_outcome {ts rest : List Located} {e : Ending} {t : Term}
    (h : Outcome.value e ts = .ok (t, rest)) :
    (⟨ts, e⟩ : Reader).value = .ok (t, ⟨rest, e⟩) := by
  obtain ⟨read, hread, hout⟩ := map_eq_ok.1 h
  cases hout
  rw [Reader.value, hread]
  rfl

/-- **The parser is complete** for the documented grammar. A text whose tokens are derived as a
value, as statements or as parameters is accepted, and what comes out is what the derivation
denotes. A value is read in front of any further tokens too, as long as the next one continues no
value, and exactly these are left. -/
theorem parse_complete :
    (∀ (text : String) (d : Derivation .value), (Lexed.ofString text).ConsistsOf d.tokens →
      Term.parse text = .ok d.meaning) ∧
    (∀ (text : String) (d : Derivation .statements), (Lexed.ofString text).ConsistsOf d.tokens →
      Listing.parseStatements text = .ok ⟨d.meaning, .statements⟩) ∧
    (∀ (text : String) (d : Derivation .parameters), (Lexed.ofString text).ConsistsOf d.tokens →
      Listing.parseParameters text = .ok ⟨d.meaning, .parameters⟩) ∧
    ∀ (d : Derivation .value) (ls rest : List Located) (e : Ending) (k : Token),
      ls.map (·.token) = d.tokens → peek e rest = .ok k → ¬ k.Continues →
        (⟨ls ++ rest, e⟩ : Reader).value = .ok (d.meaning, ⟨rest, e⟩) := by
  refine ⟨fun text d h ↦ ?_, fun text d h ↦ ?_, fun text d h ↦ ?_, ?_⟩
  · exact Term.parse_eq_ok.2 h.isPhrase
  · exact Listing.parseStatements_eq_ok.2 ⟨rfl, h.isPhrase⟩
  · exact Listing.parseParameters_eq_ok.2 ⟨rfl, h.isPhrase⟩
  · intro d ls rest e k hls hpeek hk
    refine Reader.value_of_outcome (Outcome.accepted_of_derives d.derives ls rest k hls hpeek ?_)
    exact Bool.eq_false_iff.2 fun h ↦ hk (Token.continues_iff.2 h)

/-- A composition with a call, statements with a modifier, parameters, and a value in front of a
comma. -/
theorem parse_complete_composition :
    Term.parse "a o (b) o F([n], [])" = .ok (.composite (.text "a") (.composite (.text "b")
      (.call "F" ⟨[⟨.positional, [], .capture "n"⟩, ⟨.positional, [], .array []⟩], .parameters⟩
        none))) ∧
    Listing.parseStatements "m t a=1; b=(c) -> (d)" = .ok
      ⟨[⟨.typed "t" "a", ["m"], .text "1"⟩, ⟨.named "b", [], .rule (.text "c") (.text "d")⟩],
        .statements⟩ ∧
    Listing.parseParameters "a=1, b=[\"c\"]" = .ok
      ⟨[⟨.named "a", [], .text "1"⟩, ⟨.named "b", [], .array [.text "c"]⟩], .parameters⟩ ∧
    (⟨[⟨.word "a", default⟩, ⟨.comma, default⟩], ⟨default, none⟩⟩ : Reader).value =
      .ok (.text "a", ⟨[⟨.comma, default⟩], ⟨default, none⟩⟩) := by
  let word (s : String) : Derivation .primary := .word (.bare s)
  obtain ⟨hvalue, hstatements, hparameters, hstream⟩ := parse_complete
  refine ⟨hvalue _ (.composition (word "a") (.composition (.parenthesized (.single (word "b")))
      (.single (.call (.bare "F") (.positional (.moreItems (.single (.capture "n"))
        (.item (.single .emptyArray)))))))) (by decide +kernel),
    hstatements _ (.statement ⟨[.bare "m", .bare "t"], .bare "a"⟩ (.single (word "1"))
      (.lastStatement ⟨[], .bare "b"⟩ (.single (.rule (.single (word "c")) (.single (word "d"))))))
        (by decide +kernel),
    hparameters _ (.named (.moreAssignments (.bare "a") (.single (word "1"))
      (.assignment (.bare "b") (.single (.array (.item (.single (.word (.quoted "c")))))))))
        (by decide +kernel),
    hstream (.single (word "a")) [⟨.word "a", default⟩] [⟨.comma, default⟩] _ .comma rfl rfl
      fun h ↦ absurd (Token.continues_iff.1 h) (by decide)⟩

/-! ### Soundness -/

/-- The phrases that are derived are those whose names are bare. Assignments alone are excepted,
because parameters are read for them. -/
theorem Lexed.exists_derivation_iff {lexed : Lexed} {k : Phrase.Kind} {m : k.Meaning}
    (hk : k ≠ .assignments) :
    (∃ d : Derivation k, lexed.ConsistsOf d.tokens ∧ d.meaning = m) ↔
      lexed.IsPhrase (k.phrase m) ∧ NamesBare (lexed.tokens.map (·.token)) := by
  constructor
  · rintro ⟨d, hd, rfl⟩
    exact ⟨hd.isPhrase, hd.2 ▸ d.detached.bare⟩
  · rintro ⟨⟨hfault, h⟩, hbare⟩
    have hderived : ∃ d : Derivation k, d.tokens = lexed.tokens.map (·.token) ∧ d.meaning = m := by
      cases k with
      | assignments => exact absurd rfl hk
      | _ => exact h.isDerived hbare
    obtain ⟨d, hd, hmeaning⟩ := hderived
    exact ⟨d, ⟨hfault, hd.symm⟩, hmeaning⟩

/-- **The parser is sound** for the documented grammar, but for the names of parameters: of the
texts that it accepts, exactly those are derived, with the same meaning, in which no `)` stands
directly in front of an `=`. -/
theorem parse_documented_iff (text : String) :
    (∀ t, (∃ d : Derivation .value, (Lexed.ofString text).ConsistsOf d.tokens ∧ d.meaning = t) ↔
      Term.parse text = .ok t ∧ NamesBare ((Lexed.ofString text).tokens.map (·.token))) ∧
    (∀ es, (∃ d : Derivation .statements,
        (Lexed.ofString text).ConsistsOf d.tokens ∧ d.meaning = es) ↔
      Listing.parseStatements text = .ok ⟨es, .statements⟩ ∧
        NamesBare ((Lexed.ofString text).tokens.map (·.token))) ∧
    ∀ es, (∃ d : Derivation .parameters,
        (Lexed.ofString text).ConsistsOf d.tokens ∧ d.meaning = es) ↔
      Listing.parseParameters text = .ok ⟨es, .parameters⟩ ∧
        NamesBare ((Lexed.ofString text).tokens.map (·.token)) := by
  refine ⟨fun t ↦ ?_, fun es ↦ ?_, fun es ↦ ?_⟩
  · rw [Term.parse_eq_ok]
    exact Lexed.exists_derivation_iff nofun
  · rw [Listing.parseStatements_eq_ok, and_iff_right rfl]
    exact Lexed.exists_derivation_iff nofun
  · rw [Listing.parseParameters_eq_ok, and_iff_right rfl]
    exact Lexed.exists_derivation_iff nofun

/-- **A name in parentheses** is read as a name, and not derived. -/
theorem parse_undocumented :
    Listing.parseParameters "(a)=1" = .ok ⟨[⟨.named "a", [], .text "1"⟩], .parameters⟩ ∧
      ¬ ∃ d : Derivation .parameters, (Lexed.ofString "(a)=1").ConsistsOf d.tokens := by
  have htokens : (Lexed.ofString "(a)=1").tokens.map (·.token) =
      [.leftParen, .word "a", .rightParen, .equals, .word "1"] := by decide +kernel
  have hvalue (s : String) : Derives [.word s] (.value (.text s)) := .single (.text rfl)
  refine ⟨?_, ?_⟩
  · refine Listing.parseParameters_eq_ok.2 ⟨rfl, by decide +kernel, ?_⟩
    rw [htokens]
    exact .lastParameter (.named (.single (.parenthesized (hvalue "a"))) (hvalue "1"))
  · rintro ⟨d, -, hd⟩
    have hbare := d.detached.bare
    rw [← hd, htokens] at hbare
    exact absurd hbare (by decide)

end TermRegistry
