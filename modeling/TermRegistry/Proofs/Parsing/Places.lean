import TermRegistry.Proofs.Lexing.Place
import TermRegistry.Proofs.Parsing.Outcome
import TermRegistry.Proofs.Success

/-!
# Where parsing fails

A parser that expects a token and is handed out another one fails, and so does a parser that expects
the end of the text and is handed out a token (`Parse.expect_eq_error`, `Parse.finish_eq_error`).
The error names the token that was handed out and carries its place.

The same holds of all errors of a whole run. `Parse.Traced` follows a parser through its tokens:
what it leaves unread is the end of what it was given, so that every error is about a token that is
handed out when some tokens have been taken, or is the lexical fault of the text.
-/

namespace TermRegistry

/-- The token that a fault says was found. -/
def SyntaxFault.found? : SyntaxFault → Option Token
  | unexpected _ found | noReferenceName found | noStatementName found | noValue found
  | noItem found | trailing found => some found
  | parameterName _ | mixedParameters => none

/-- The token that a fault says was expected, if it was a single one. -/
def SyntaxFault.expected? : SyntaxFault → Option Token
  | unexpected expected _ => some expected
  | trailing _ => some .endOfInput
  | _ => none

namespace Parse

open Lexed

/-! ### Single tokens -/

/-- The error that is due when a reader gets something that it refuses. -/
def Refuses (answer : Except Error Located) (wanted : Token) (fault : Token → SyntaxFault)
    (error : Error) : Prop :=
  answer = .error error ∨
    ∃ t, answer = .ok t ∧ t.token ≠ wanted ∧ error = .syntactic (fault t.token) t.position

/-- At the end of a text any token is refused but its end. -/
theorem refuses_afterLast (e : Ending) {wanted : Token} (h : wanted ≠ .endOfInput)
    (fault : Token → SyntaxFault) (error : Error) :
    Refuses (afterLast e) wanted fault error ↔ error = missing e fault := by
  obtain ⟨p, fault?⟩ := e
  cases fault? with
  | none =>
    refine ⟨?_, fun herror ↦ .inr ⟨⟨.endOfInput, p⟩, rfl, h.symm, herror⟩⟩
    rintro (hanswer | ⟨t, ht, -, rfl⟩)
    · cases hanswer
    · cases ht
      rfl
  | some lexical =>
    refine ⟨?_, fun herror ↦ .inl (congrArg _ herror.symm)⟩
    rintro (hanswer | ⟨t, ht, -, -⟩)
    · cases hanswer
      rfl
    · cases ht

/-- A token is refused where another one is wanted. -/
theorem refuses_ok {t : Located} {wanted : Token} (fault : Token → SyntaxFault) (error : Error) :
    Refuses (.ok t) wanted fault error ↔
      t.token ≠ wanted ∧ error = .syntactic (fault t.token) t.position := by
  refine ⟨?_, fun herror ↦ .inr ⟨t, rfl, herror⟩⟩
  rintro (hanswer | ⟨t', ht, herror⟩)
  · cases hanswer
  · cases ht
    exact herror

/-- **Expecting a token fails where the next one is another**, or at the fault of the text. -/
theorem expect_eq_error (e : Ending) {wanted : Token} (h : wanted ≠ .endOfInput)
    (ts : List Located) (error : Error) :
    Outcome.expect e wanted ts = .error error ↔
      Refuses ((⟨ts, e⟩ : Lexed).nth 0) wanted (.unexpected wanted) error := by
  cases ts with
  | nil =>
    rw [nth_nil, refuses_afterLast e h]
    exact ⟨fun he ↦ (Except.error.inj he).symm, fun he ↦ congrArg _ he.symm⟩
  | cons t ts =>
    refine Iff.trans ?_ (refuses_ok _ error).symm
    rw [Outcome.expect, expect]
    split
    · next ht =>
      refine iff_of_false (fun he ↦ ?_) fun herror ↦ herror.1 ht
      cases he
    · next hne =>
      exact ⟨fun he ↦ ⟨hne, (Except.error.inj he).symm⟩, fun herror ↦ congrArg _ herror.2.symm⟩

/-- **The end is refused where a token is left**, or at the fault of the text. -/
theorem finish_eq_error (e : Ending) {ts : List Located}
    (hts : ∀ t ∈ ts, t.token ≠ .endOfInput) (error : Error) :
    finish e ts = .error error ↔
      Refuses ((⟨ts, e⟩ : Lexed).nth 0) .endOfInput .trailing error := by
  cases ts with
  | nil =>
    obtain ⟨p, fault?⟩ := e
    cases fault? with
    | none =>
      refine iff_of_false (fun he ↦ ?_) fun hrefuses ↦ ((refuses_ok _ error).1 hrefuses).1 rfl
      cases he
    | some lexical =>
      refine ⟨?_, ?_⟩
      · intro he
        cases he
        exact .inl rfl
      · rintro (hanswer | ⟨t, ht, -⟩)
        · cases hanswer
          rfl
        · cases ht
  | cons t ts =>
    refine Iff.trans ?_ (refuses_ok _ error).symm
    rw [finish]
    exact ⟨fun he ↦ ⟨hts t List.mem_cons_self, (Except.error.inj he).symm⟩,
      fun herror ↦ congrArg _ herror.2.symm⟩

/-! ### What errors are about -/

/-- **An error is about what is handed out**: it is the lexical fault, or it has the place of the
token that is handed out. Then this is the token that was found, and not the one expected. -/
inductive Blames : Except Error Located → Error → Prop
  | lexical (error : Error) : Blames (.error error) error
  | syntactic {t : Located} {fault : SyntaxFault}
      (hfound : ∀ k, fault.found? = some k → k = t.token)
      (hexpected : ∀ k, fault.expected? = some k → k ≠ t.token) :
      Blames (.ok t) (.syntactic fault t.position)

/-- What is refused is blamed. -/
theorem Refuses.blames {answer : Except Error Located} {wanted : Token}
    {fault : Token → SyntaxFault} {error : Error} (h : Refuses answer wanted fault error)
    (hfound : ∀ k, (fault k).found? = some k)
    (hexpected : ∀ k l, (fault k).expected? = some l → l = wanted) : Blames answer error := by
  rcases h with rfl | ⟨t, rfl, hne, rfl⟩
  · exact .lexical error
  · refine .syntactic (fun k hk ↦ ?_) fun k hk ↦ ?_
    · exact Option.some.inj (hk.symm.trans (hfound t.token))
    · rw [hexpected t.token k hk]
      exact hne.symm

/-- Where the tokens have run out, the error of not finding one is about the end. -/
theorem blames_missing (e : Ending) {fault : Token → SyntaxFault}
    (hfound : ∀ k, (fault k).found? = some k)
    (hexpected : ∀ k, (fault k).expected? = none) :
    Blames ((⟨[], e⟩ : Lexed).nth 0) (missing e fault) := by
  obtain ⟨p, fault?⟩ := e
  cases fault? with
  | some lexical => exact .lexical _
  | none =>
    refine .syntactic (t := ⟨.endOfInput, p⟩) (fun k hk ↦ ?_) fun k hk ↦ ?_
    · exact Option.some.inj (hk.symm.trans (hfound _))
    · rw [hexpected] at hk
      cases hk

/-- What is seen next is handed out next, in its place. -/
theorem nth_of_peek {e : Ending} {ts : List Located} {k : Token} (h : peek e ts = .ok k) :
    (⟨ts, e⟩ : Lexed).nth 0 = .ok ⟨k, positionOf e ts⟩ := by
  cases ts with
  | nil =>
    obtain ⟨p, fault?⟩ := e
    cases fault? with
    | some lexical => cases h
    | none =>
      cases h
      rfl
  | cons t ts =>
    cases h
    rfl

/-! ### Following a parser -/

variable {α β : Type} {e : Ending} {all ts us : List Located}

/-- **A result that is traced**: a success has a property, and an error is about what is handed out
for some tokens at the end of all. -/
def Traced (e : Ending) (all : List Located) (P : α → Prop) : Except Error α → Prop
  | .ok a => P a
  | .error error => ∃ us, us <:+ all ∧ Blames ((⟨us, e⟩ : Lexed).nth 0) error

/-- What is left unread is at the end of all tokens. -/
def Within (all : List Located) (r : α × List Located) : Prop := r.2 <:+ all

namespace Traced

variable {P : α → Prop} {Q : β → Prop}

/-- An error about what is handed out for tokens at the end is traced. -/
theorem error (hus : us <:+ all) {error : Error} (h : Blames ((⟨us, e⟩ : Lexed).nth 0) error) :
    Traced e all P (.error error) :=
  ⟨us, hus, h⟩

/-- **A sequence is traced if its steps are.** -/
theorem bind {r : Except Error α} {f : α → Except Error β} (h : Traced e all P r)
    (hf : ∀ a, r = .ok a → P a → Traced e all Q (f a)) : Traced e all Q (r.bind f) := by
  cases r with
  | error error => exact h
  | ok a => exact hf a rfl h

/-- A result is traced after it has been changed. -/
theorem map {r : Except Error α} {f : α → β} (h : Traced e all P r) (hf : ∀ a, P a → Q (f a)) :
    Traced e all Q (r.map f) := by
  cases r with
  | error error => exact h
  | ok a => exact hf a h

end Traced

/-- An error at the token in front of some others is traced. -/
theorem traced_cons {P : α → Prop} {t : Located} (h : t :: ts <:+ all) {fault : SyntaxFault}
    (hfound : ∀ k, fault.found? = some k → k = t.token) (hexpected : fault.expected? = none) :
    Traced e all P (.error (.syntactic fault t.position)) := by
  refine .error h (.syntactic hfound fun k hk ↦ ?_)
  rw [hexpected] at hk
  cases hk

/-- What is at the end stays there when a token is taken. -/
theorem suffix_of_cons {t : Located} (h : t :: ts <:+ all) : ts <:+ all :=
  (List.suffix_cons t ts).trans h

/-- Seeing what is next fails at the fault of the text only. -/
theorem traced_peek (h : ts <:+ all) : Traced e all (fun _ ↦ True) (peek e ts) := by
  cases ts with
  | nil =>
    obtain ⟨p, fault?⟩ := e
    cases fault? with
    | some lexical => exact .error h (.lexical _)
    | none => trivial
  | cons t ts => trivial

namespace Outcome

/-- Taking a token, if it is there, leaves fewer tokens. -/
theorem traced_taking (token : Token) (h : ts <:+ all) :
    Traced e all (fun found ↦ ∀ us ∈ found, us <:+ all ∧ us.length < ts.length)
      (taking e token ts) := by
  cases ts with
  | nil =>
    obtain ⟨p, fault?⟩ := e
    cases fault? with
    | some lexical => exact .error h (.lexical _)
    | none =>
      intro us hus
      cases hus
  | cons t ts =>
    rw [taking_cons]
    intro us hus
    split at hus
    · cases hus
      exact ⟨suffix_of_cons h, Nat.lt_succ_self _⟩
    · cases hus

/-- Expecting a token is traced to the one that is there instead. -/
theorem traced_expect (token : Token) (h : ts <:+ all)
    (htoken : token ≠ .endOfInput := by decide) :
    Traced e all (Within all) (expect e token ts) := by
  cases hr : expect e token ts with
  | error error =>
    exact .error h (((expect_eq_error e htoken ts error).1 hr).blames (fun _ ↦ rfl)
      fun _ _ hk ↦ (Option.some.inj hk).symm)
  | ok r =>
    obtain ⟨p, rfl⟩ := eq_cons_of_expect hr
    exact suffix_of_cons h

/-- Reading the name of a reference is traced to what stands in its place. -/
theorem traced_referenceName (h : ts <:+ all) :
    Traced e all (Within all) (referenceName e ts) := by
  cases ts with
  | nil => exact .error h (blames_missing e (fun _ ↦ rfl) fun _ ↦ rfl)
  | cons t ts =>
    rw [referenceName, Parse.referenceName]
    split
    · exact suffix_of_cons h
    · exact traced_cons h (fun k hk ↦ (Option.some.inj hk).symm) rfl

/-- Reading the heading of a statement is traced to what is no word in it. -/
theorem traced_heading (words : List String) (h : ts <:+ all) :
    Traced e all (Within all) (heading e words ts) := by
  induction ts generalizing words with
  | nil =>
    rw [heading, Parse.heading]
    exact .error h (blames_missing e (fun _ ↦ rfl) fun _ ↦ rfl)
  | cons t ts ih =>
    cases htext : t.token.text? with
    | some word =>
      rw [heading_word htext]
      exact ih _ (suffix_of_cons h)
    | none =>
      rw [heading, Parse.heading, htext]
      simp only
      split
      · exact suffix_of_cons h
      · exact traced_cons h (fun k hk ↦ (Option.some.inj hk).symm) rfl

/-! ### Terms -/

-- One mutual induction, with the measure of the parsing functions themselves.
mutual

/-- **Reading a value is traced**, and so is all that it is made of. -/
theorem traced_value {ts : List Located} (h : ts <:+ all) :
    Traced e all (Within all) (value e ts) := by
  rw [value_eq]
  refine (traced_primary h).bind ?_
  rintro ⟨t, us⟩ ht hus
  have hlt : us.length < ts.length := length_lt ht
  exact traced_chain t hus
termination_by (ts.length, 1)

theorem traced_chain {ts : List Located} (first : Term) (h : ts <:+ all) :
    Traced e all (Within all) (chain e first ts) := by
  rw [chain_eq]
  refine (traced_taking .compose h).bind ?_
  rintro (_ | us) - hfound
  · exact h
  · obtain ⟨hus, hlt⟩ := hfound us rfl
    exact (traced_value hus).map fun _ hr ↦ hr
termination_by (ts.length, 0)

theorem traced_primary {ts : List Located} (h : ts <:+ all) :
    Traced e all (Within all) (primary e ts) := by
  cases hts : ts with
  | nil =>
    rw [primary, Parse.primary]
    exact .error (hts ▸ h) (blames_missing e (fun _ ↦ rfl) fun _ ↦ rfl)
  | cons k us =>
    have hlt : us.length < ts.length := hts ▸ Nat.lt_succ_self _
    have hus : us <:+ all := suffix_of_cons (hts ▸ h)
    obtain ⟨token, p⟩ := k
    -- By the first token; one that begins no primary is to blame itself.
    cases token with
    | word s | quoted s =>
      rw [primary_word rfl]
      exact traced_called s hus
    | dollar =>
      rw [primary_dollar]
      refine (traced_expect .leftBrace hus).bind ?_
      rintro ⟨_, vs⟩ - hvs
      refine (traced_referenceName hvs).bind ?_
      rintro ⟨name, ws⟩ - hws
      refine (traced_expect .rightBrace hws).bind ?_
      rintro ⟨_, xs⟩ - hxs
      exact hxs
    | leftBracket =>
      rw [primary_bracket]
      exact traced_bracketed hus
    | leftParen =>
      rw [primary_paren]
      refine (traced_value hus).bind ?_
      rintro ⟨s, vs⟩ hs hvs
      have hvlt : vs.length < us.length := length_lt hs
      refine (traced_expect .rightParen hvs).bind ?_
      rintro ⟨_, ws⟩ hparen hws
      have hwlt : ws.length < vs.length := length_lt hparen
      exact traced_target s hws
    | _ =>
      rw [primary, Parse.primary]
      exact traced_cons (hts ▸ h) (fun k hk ↦ (Option.some.inj hk).symm) rfl
termination_by (ts.length, 0)

theorem traced_target {ts : List Located} (source : Term) (h : ts <:+ all) :
    Traced e all (Within all) (target e source ts) := by
  rw [target]
  refine (traced_taking .arrow h).bind ?_
  rintro (_ | us) - hfound
  · exact h
  · obtain ⟨hus, hlt⟩ := hfound us rfl
    refine (traced_expect .leftParen hus).bind ?_
    rintro ⟨_, vs⟩ hvs hvs'
    have hvlt : vs.length < us.length := length_lt hvs
    refine (traced_value hvs').bind ?_
    rintro ⟨t, ws⟩ - hws
    refine (traced_expect .rightParen hws).bind ?_
    rintro ⟨_, xs⟩ - hxs
    exact hxs
termination_by (ts.length, 0)

theorem traced_called {ts : List Located} (name : String) (h : ts <:+ all) :
    Traced e all (Within all) (called e name ts) := by
  rw [called_eq]
  refine (traced_taking .leftParen h).bind ?_
  rintro (_ | us) - hfound
  · exact h
  · obtain ⟨hus, hlt⟩ := hfound us rfl
    refine (traced_parameters hus).bind ?_
    rintro ⟨l, vs⟩ hl hvs
    have hvlt : vs.length < us.length + 1 := length_lt hl
    refine (traced_expect .rightParen hvs).bind ?_
    rintro ⟨_, ws⟩ hws hws'
    have hwlt : ws.length < vs.length := length_lt hws
    exact traced_internal name l hws'
termination_by (ts.length, 0)

theorem traced_internal {ts : List Located} (name : String) (l : Listing Term)
    (h : ts <:+ all) : Traced e all (Within all) (internal e name l ts) := by
  rw [internal]
  refine (traced_taking .leftBrace h).bind ?_
  rintro (_ | us) - hfound
  · exact h
  · obtain ⟨hus, hlt⟩ := hfound us rfl
    refine (traced_statements hus).bind ?_
    rintro ⟨es, vs⟩ - hvs
    refine (traced_expect .rightBrace hvs).bind ?_
    rintro ⟨_, ws⟩ - hws
    exact hws
termination_by (ts.length, 0)

theorem traced_bracketed {ts : List Located} (h : ts <:+ all) :
    Traced e all (Within all) (bracketed e ts) := by
  rw [bracketed_eq]
  refine (traced_taking .rightBracket h).bind ?_
  rintro (_ | us) - hfound
  · exact traced_captureOrItems h
  · exact (hfound us rfl).1
termination_by (ts.length, 4)

theorem traced_captureOrItems {ts : List Located} (h : ts <:+ all) :
    Traced e all (Within all) (captureOrItems e ts) := by
  -- A bare word in front is read as a capture, or once more as the first item.
  by_cases hfirst : ∃ word p us, ts = ⟨.word word, p⟩ :: us
  · obtain ⟨word, p, us, hts⟩ := hfirst
    rw [hts, captureOrItems_word, ← hts]
    refine (traced_taking .rightBracket (suffix_of_cons (hts ▸ h))).bind ?_
    rintro (_ | vs) - hfound
    · exact (traced_items h).map fun _ hr ↦ hr
    · exact (hfound vs rfl).1
  · rw [captureOrItems_eq fun word p us hts ↦ hfirst ⟨word, p, us, hts⟩]
    exact (traced_items h).map fun _ hr ↦ hr
termination_by (ts.length, 3)

theorem traced_items {ts : List Located} (h : ts <:+ all) :
    Traced e all (Within all) (items e ts) := by
  rw [items]
  refine (traced_value h).bind ?_
  rintro ⟨t, us⟩ ht hus
  have hlt : us.length < ts.length := length_lt ht
  exact (traced_moreItems hus).map fun _ hr ↦ hr
termination_by (ts.length, 2)

theorem traced_moreItems {ts : List Located} (h : ts <:+ all) :
    Traced e all (Within all) (moreItems e ts) := by
  cases ts with
  | nil =>
    rw [moreItems, Parse.moreItems]
    exact .error h (blames_missing e (fun _ ↦ rfl) fun _ ↦ rfl)
  | cons k ts =>
    obtain ⟨token, p⟩ := k
    have hts : ts <:+ all := suffix_of_cons h
    cases token with
    | comma =>
      rw [moreItems_comma]
      exact traced_items hts
    | rightBracket =>
      rw [moreItems_close]
      exact hts
    | _ =>
      rw [moreItems, Parse.moreItems]
      exact traced_cons h (fun k hk ↦ (Option.some.inj hk).symm) rfl
termination_by (ts.length, 0)

theorem traced_parameters {ts : List Located} (h : ts <:+ all) :
    Traced e all (Within all) (parameters e ts) := by
  rw [parameters_eq]
  refine (traced_peek h).bind fun k _ _ ↦ ?_
  split
  · exact h
  · exact traced_moreParameters {} h
termination_by (ts.length, 4)

theorem traced_moreParameters {ts : List Located} (before : Listing Term) (h : ts <:+ all) :
    Traced e all (Within all) (moreParameters e before ts) := by
  rw [moreParameters_eq]
  refine (traced_parameter h).bind ?_
  rintro ⟨entry, us⟩ hentry (hus : us <:+ all)
  have hlt : us.length < ts.length := length_lt hentry
  cases hpush : before.push? entry with
  | none =>
    simp only [hpush]
    -- An entry that does not go with the others is blamed on its first token, of which there is
    -- one.
    obtain ⟨t, vs, rfl⟩ := List.exists_cons_of_length_pos (Nat.zero_lt_of_lt hlt)
    exact traced_cons h nofun rfl
  | some list =>
    simp only [hpush]
    refine (traced_taking .comma hus).bind ?_
    rintro (_ | vs) - hfound
    · exact hus
    · obtain ⟨hvs, hvlt⟩ := hfound vs rfl
      exact traced_moreParameters list hvs
termination_by (ts.length, 3)

theorem traced_parameter {ts : List Located} (h : ts <:+ all) :
    Traced e all (Within all) (parameter e ts) := by
  rw [parameter_eq]
  refine (traced_value h).bind ?_
  rintro ⟨first, us⟩ hfirst (hus : us <:+ all)
  have hlt : us.length < ts.length := length_lt hfirst
  refine (traced_taking .equals hus).bind ?_
  rintro (_ | vs) - hfound
  · exact hus
  · obtain ⟨hvs, hvlt⟩ := hfound vs rfl
    cases first.text? with
    | none =>
      obtain ⟨t, ws, rfl⟩ := List.exists_cons_of_length_pos (Nat.zero_lt_of_lt hlt)
      exact traced_cons h nofun rfl
    | some name => exact (traced_value hvs).map fun _ hr ↦ hr
termination_by (ts.length, 2)

theorem traced_statements {ts : List Located} (h : ts <:+ all) :
    Traced e all (Within all) (statements e ts) := by
  rw [statements_eq]
  refine (traced_peek h).bind fun k _ _ ↦ ?_
  split
  · exact h
  · refine (traced_heading [] h).bind ?_
    rintro ⟨label, us⟩ hlabel hus
    have hlt : us.length < ts.length := length_lt hlabel
    refine (traced_value hus).bind ?_
    rintro ⟨t, vs⟩ ht hvs
    have hvlt : vs.length < us.length := length_lt ht
    exact traced_moreStatements _ hvs
termination_by (ts.length, 0)

theorem traced_moreStatements {ts : List Located} (entry : Entry Term) (h : ts <:+ all) :
    Traced e all (Within all) (moreStatements e entry ts) := by
  rw [moreStatements]
  refine (traced_taking .semicolon h).bind ?_
  rintro (_ | us) htaking hfound
  · refine (traced_peek h).bind fun k hk _ ↦ ?_
    split
    · exact h
    · refine .error h ?_
      rw [nth_of_peek hk]
      refine .syntactic (fun l hl ↦ (Option.some.inj hl).symm) fun l hl ↦ ?_
      obtain rfl := Option.some.inj hl
      exact (ne_of_taking_eq_none (by decide) htaking hk).symm
  · obtain ⟨hus, hlt⟩ := hfound us rfl
    exact (traced_statements hus).map fun _ hr ↦ hr
termination_by (ts.length, 0)

end

end Outcome

/-- The end of a text is expected behind its tokens. -/
theorem traced_finish (h : ts <:+ all) (hall : ∀ t ∈ all, t.token ≠ .endOfInput) :
    Traced e all (fun _ ↦ True) (finish e ts) := by
  cases hr : finish e ts with
  | error error =>
    have hts : ∀ t ∈ ts, t.token ≠ .endOfInput := fun t ht ↦ hall t (h.subset ht)
    exact .error h (((finish_eq_error e hts error).1 hr).blames (fun _ ↦ rfl)
      fun _ _ hk ↦ (Option.some.inj hk).symm)
  | ok u => trivial

end Parse

/-! ### Whole texts -/

open Parse

/-- What is read of a text as a whole is traced if what is read of it first is. -/
theorem Reader.traced_whole {α β : Type} {n : Nat} {e : Ending} {all : List Located}
    {r : Except Error (Read α n)} (f : α → β) (h : Traced e all (Within all) (Reading.outcome r))
    (hall : ∀ t ∈ all, t.token ≠ .endOfInput) :
    Traced e all (fun _ ↦ True) (do
      let (a, reader) ← (do
        let read ← r
        return (f read.result, (⟨read.rest, e⟩ : Reader)))
      reader.finish
      return a) := by
  cases r with
  | error error => exact h
  | ok read => exact (traced_finish h hall).bind fun _ _ _ ↦ trivial

/-- A traced error is about what is handed out when some tokens have been taken. -/
theorem Parse.Traced.exists_blames {α : Type} {P : α → Prop} {e : Ending} {all : List Located}
    {r : Except Error α} {error : Error} (h : Traced e all P r) (hr : r = .error error) :
    ∃ n, Blames ((⟨all, e⟩ : Lexed).nth n) error := by
  rw [hr] at h
  obtain ⟨us, hus, hblames⟩ := h
  refine ⟨all.length - us.length, ?_⟩
  rwa [← Lexed.nth_drop, ← List.suffix_iff_eq_drop.1 hus]

/-- **Every error of reading a text is about what is handed out for it.** -/
theorem exists_blames {text : String} {error : Error}
    (h : Term.parse text = .error error ∨ Listing.parseStatements text = .error error ∨
      Listing.parseParameters text = .error error) :
    ∃ n, Blames ((Lexed.ofString text).nth n) error := by
  let lexed := Lexed.ofString text
  have hall : ∀ t ∈ lexed.tokens, t.token ≠ .endOfInput := fun _ ↦ Lexed.token_ne_endOfInput
  have hself : lexed.tokens <:+ lexed.tokens := List.suffix_refl _
  rcases h with h | h | h
  · exact (Reader.traced_whole id (Outcome.traced_value hself) hall).exists_blames h
  · exact (Reader.traced_whole (fun es ↦ (⟨es, .statements⟩ : Listing Term))
      (Outcome.traced_statements hself) hall).exists_blames h
  · exact (Reader.traced_whole id (Outcome.traced_parameters hself) hall).exists_blames h

/-- **Positions are exact.** A text is cut into slices up to its end or its first lexical fault, and
whatever is handed out for it, the end and the fault included, carries the place of its first
character. With any number of tokens taken, a parser that expects a token or the end of the text
and fails reports the next token that is handed out, or the fault, in its place. So does every error
of reading the text as a term, as statements or as parameters. -/
theorem positions_exact (text : String) {wanted : Token} (hwanted : wanted ≠ .endOfInput) :
    ∃ ss rest fault?, Splits ss text.toList rest ∧ Stops fault? rest ∧
      (∀ n, Slice.Answers ss fault? n ((Lexed.ofString text).nth n) ∧
        ∀ error,
          (Outcome.expect (Lexed.ofString text).ending wanted
              ((Lexed.ofString text).tokens.drop n) = .error error ↔
            Refuses ((Lexed.ofString text).nth n) wanted (.unexpected wanted) error) ∧
          (finish (Lexed.ofString text).ending
              ((Lexed.ofString text).tokens.drop n) = .error error ↔
            Refuses ((Lexed.ofString text).nth n) .endOfInput .trailing error)) ∧
      ∀ error, Term.parse text = .error error ∨ Listing.parseStatements text = .error error ∨
        Listing.parseParameters text = .error error →
          ∃ n, Blames ((Lexed.ofString text).nth n) error := by
  obtain ⟨ss, rest, fault?, hs, hstops⟩ := exists_splits text.toList
  refine ⟨ss, rest, fault?, hs, hstops, fun n ↦ ⟨Slice.answers_nth hs hstops n, fun error ↦ ?_⟩,
    fun error ↦ exists_blames⟩
  rw [← Lexed.nth_drop]
  refine ⟨expect_eq_error _ hwanted _ error, finish_eq_error _ (fun t ht ↦ ?_) error⟩
  exact Lexed.token_ne_endOfInput (List.mem_of_mem_drop ht)

/-- A semicolon is expected of a text of two lines. -/
theorem positions_exact_two_lines :
    Token.semicolon ≠ .endOfInput ∧
    ∃ ss rest fault?, Splits ss "a\n  b".toList rest ∧ Stops fault? rest ∧
      (∀ n, Slice.Answers ss fault? n ((Lexed.ofString "a\n  b").nth n) ∧
        ∀ error,
          (Outcome.expect (Lexed.ofString "a\n  b").ending .semicolon
              ((Lexed.ofString "a\n  b").tokens.drop n) = .error error ↔
            Refuses ((Lexed.ofString "a\n  b").nth n) .semicolon (.unexpected .semicolon) error) ∧
          (finish (Lexed.ofString "a\n  b").ending
              ((Lexed.ofString "a\n  b").tokens.drop n) = .error error ↔
            Refuses ((Lexed.ofString "a\n  b").nth n) .endOfInput .trailing error)) ∧
      ∀ error, Term.parse "a\n  b" = .error error ∨
        Listing.parseStatements "a\n  b" = .error error ∨
        Listing.parseParameters "a\n  b" = .error error →
          ∃ n, Blames ((Lexed.ofString "a\n  b").nth n) error :=
  ⟨nofun, positions_exact "a\n  b" nofun⟩

end TermRegistry
