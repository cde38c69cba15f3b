import TermRegistry.Term.Parser

/-!
# What a parser reads

The results of the parsing functions carry the proof that they end, and so depend on the tokens
they are given. An outcome drops that proof: what is left is the thing that was read and the tokens
behind it. Here each parsing function gets one equation for its outcome in terms of the outcomes of
the functions it calls; soundness and completeness are proved from these equations alone.
-/

namespace TermRegistry

/-- What was read and what is left behind it, without the bound on what is left. -/
def Reading.outcome {τ α : Type} {n : Nat} (r : Except Error (Reading τ α n)) :
    Except Error (α × List τ) :=
  r.map fun r ↦ (r.result, r.rest)

namespace Parse

/-- What is read from tokens, and the tokens left behind it. -/
abbrev Outcome (α : Type) := Except Error (α × List Located)

namespace Outcome

open Reading (outcome)

/-! ### The outcomes of the parsing functions -/

section

variable (e : Ending) (ts : List Located)

/-- The outcome of expecting a token. -/
def expect (token : Token) (ts : List Located) : Outcome Unit := outcome (Parse.expect e token ts)

/-- The outcome of reading the name of a reference. -/
def referenceName : Outcome String := outcome (Parse.referenceName e ts)

/-- The outcome of reading the heading of a statement behind some words. -/
def heading (words : List String) (ts : List Located) : Outcome (Label × List String) :=
  outcome (Parse.heading e words ts)

/-- The outcome of reading a value. -/
def value : Outcome Term := outcome (Parse.value e ts)

/-- The outcome of reading what `o` joins to a first operand. -/
def chain (first : Term) (ts : List Located) : Outcome Term := outcome (Parse.chain e first ts)

/-- The outcome of reading a value without `o` outside parentheses. -/
def primary : Outcome Term := outcome (Parse.primary e ts)

/-- The outcome of reading what follows a word. -/
def called (word : String) (ts : List Located) : Outcome Term := outcome (Parse.called e word ts)

/-- The outcome of reading what follows an opening bracket. -/
def bracketed : Outcome Term := outcome (Parse.bracketed e ts)

/-- The outcome of reading what follows an opening bracket that is not closed at once. -/
def captureOrItems : Outcome Term := outcome (Parse.captureOrItems e ts)

/-- The outcome of reading the items behind the first one. -/
def moreItems : Outcome (List Term) := outcome (Parse.moreItems e ts)

/-- The outcome of reading parameters. -/
def parameters : Outcome (Listing Term) := outcome (Parse.parameters e ts)

/-- The outcome of reading parameters behind those already read. -/
def moreParameters (before : Listing Term) (ts : List Located) : Outcome (Listing Term) :=
  outcome (Parse.moreParameters e before ts)

/-- The outcome of reading one parameter. -/
def parameter : Outcome (Entry Term) := outcome (Parse.parameter e ts)

/-- The outcome of reading statements. -/
def statements : Outcome (List (Entry Term)) := outcome (Parse.statements e ts)

/-- Takes the next token if it is the given one; `none` if it is another. -/
def taking (token : Token) (ts : List Located) : Except Error (Option (List Located)) :=
  (accept e token ts).map (Option.map Reading.rest)

end

variable {e : Ending} {ts us : List Located}

/-- An outcome leaves fewer tokens than the bound of its reading. -/
theorem length_lt {α : Type} {n : Nat} {r : Except Error (Read α n)} {a : α}
    (h : outcome r = .ok (a, us)) : us.length < n := by
  cases r with
  | error e => cases h
  | ok r =>
    cases h
    exact r.shorter

/-! ### Sequences

What is done with a reading uses the bound on the tokens that are left only to show that it ends, so
the outcome of a sequence is the sequence of the outcomes.
-/

section

variable {α β : Type} {m n : Nat}

/-- The outcome of a reading and of what is done with it. -/
theorem outcome_bind {r : Except Error (Read α m)} {f : Read α m → Except Error (Read β n)}
    {g : α × List Located → Outcome β}
    (h : ∀ r : Read α m, outcome (f r) = g (r.result, r.rest)) :
    outcome (r.bind f) = (outcome r).bind g := by
  cases r with
  | error e => rfl
  | ok r => exact h r

/-- The outcome of a reading whose result and rest are changed. -/
theorem outcome_map {r : Except Error (Read α m)} {f : Read α m → Except Error (Read β n)}
    {g : α × List Located → β × List Located}
    (h : ∀ r : Read α m, outcome (f r) = .ok (g (r.result, r.rest))) :
    outcome (r.bind f) = (outcome r).map g := by
  cases r with
  | error e => rfl
  | ok r => exact h r

/-- The outcome of a reading that goes on in one way behind a token and in another without it. -/
theorem outcome_accept {token : Token}
    {f : Option (Read Unit ts.length) → Except Error (Read β n)}
    {g : Option (List Located) → Outcome β} (hnone : outcome (f none) = g none)
    (hsome : ∀ r : Read Unit ts.length, outcome (f (some r)) = g (some r.rest)) :
    outcome ((accept e token ts).bind f) = (taking e token ts).bind g := by
  rw [taking]
  cases accept e token ts with
  | error e => rfl
  | ok found =>
    cases found with
    | none => exact hnone
    | some r => exact hsome r

/-- The outcome of a reading under a larger bound. -/
theorem outcome_within {r : Except Error (Read α m)} (h : m ≤ n) :
    outcome (r.bind fun r ↦ .ok (r.within h)) = outcome r := by
  cases r <;> rfl

end

/-! ### Single tokens -/

/-- Where a token is left, it is taken if it is the one. -/
theorem taking_cons (token : Token) (t : Located) :
    taking e token (t :: ts) = .ok (if t.token = token then some ts else none) := by
  rw [taking, accept]
  split <;> rfl

/-- A token is left where it stands if it is another one. -/
theorem taking_eq_none {token k : Token} (h : peek e ts = .ok k) (hk : k ≠ token) :
    taking e token ts = .ok none := by
  cases ts with
  | nil =>
    rw [taking, accept, h]
    rfl
  | cons t ts =>
    cases h
    rw [taking_cons, if_neg hk]

/-- A token that is not taken is not the next one. -/
theorem ne_of_taking_eq_none {token k : Token} (htoken : token ≠ .endOfInput)
    (h : taking e token ts = .ok none) (hk : peek e ts = .ok k) : k ≠ token := by
  rintro rfl
  cases ts with
  | nil =>
    obtain ⟨p, fault?⟩ := e
    cases fault? with
    | some lexical => cases hk
    | none =>
      cases hk
      exact htoken rfl
  | cons t ts =>
    cases hk
    rw [taking_cons, if_pos rfl] at h
    cases h

/-- A token is taken only if it stands in front. -/
theorem eq_cons_of_taking {token : Token} (h : taking e token ts = .ok (some us)) :
    ∃ p, ts = ⟨token, p⟩ :: us := by
  cases ts with
  | nil =>
    rw [taking, accept] at h
    cases hp : peek e [] with
    | error e =>
      rw [hp] at h
      cases h
    | ok k =>
      rw [hp] at h
      cases h
  | cons t ts =>
    rw [taking_cons] at h
    split at h
    · next ht =>
      cases h
      exact ⟨t.position, by rw [← ht]⟩
    · cases h

/-- The token that is expected is taken. -/
theorem expect_cons (token : Token) (p : Position) :
    expect e token (⟨token, p⟩ :: ts) = .ok ((), ts) := by
  rw [expect, Parse.expect, if_pos rfl]
  rfl

/-- Only the token that is expected is taken. -/
theorem eq_cons_of_expect {token : Token} {u : Unit} (h : expect e token ts = .ok (u, us)) :
    ∃ p, ts = ⟨token, p⟩ :: us := by
  cases ts with
  | nil => cases h
  | cons t ts =>
    rw [expect, Parse.expect] at h
    split at h
    · next ht =>
      cases h
      exact ⟨t.position, by rw [← ht]⟩
    · cases h

/-- A word or a quoted text names a reference. -/
theorem referenceName_cons {name : String} {t : Located} (h : t.token.text? = some name) :
    referenceName e (t :: ts) = .ok (name, ts) := by
  rw [referenceName, Parse.referenceName, h]
  rfl

/-- Nothing else names one. -/
theorem eq_cons_of_referenceName {name : String} (h : referenceName e ts = .ok (name, us)) :
    ∃ t, t.token.text? = some name ∧ ts = t :: us := by
  cases ts with
  | nil => cases h
  | cons t ts =>
    rw [referenceName, Parse.referenceName] at h
    split at h
    · next ht =>
      cases h
      exact ⟨t, ht, rfl⟩
    · cases h

/-! ### Values -/

/-- **A value** is a primary and what `o` joins to it. -/
theorem value_eq : value e ts = (primary e ts).bind fun (t, us) ↦ chain e t us := by
  rw [value, Parse.value]
  exact outcome_bind fun first ↦ outcome_within _

/-- **A chain** ends where no `o` stands, or goes on with another value. -/
theorem chain_eq (first : Term) : chain e first ts =
    (taking e .compose ts).bind fun
      | none => .ok (first, ts)
      | some us => (value e us).map fun (t, us) ↦ (.composite first t, us) := by
  rw [chain, Parse.chain]
  refine outcome_accept rfl fun compose ↦ ?_
  -- Behind an `o` the chain goes on as a value does.
  show _ = (value e compose.rest).map _
  rw [value_eq]
  refine Eq.trans (outcome_bind fun operand ↦ ?_) (map_bind (m := Except Error) _ _ _).symm
  exact outcome_map fun others ↦ rfl

/-- What begins with a word is read by what follows the word. -/
theorem primary_word {t : Located} {text : String} (h : t.token.text? = some text) :
    primary e (t :: ts) = called e text ts := by
  obtain ⟨token, p⟩ := t
  rw [primary, Parse.primary]
  cases token <;> cases h <;> rfl

/-- What begins with a dollar is a reference. -/
theorem primary_dollar (p : Position) : primary e (⟨.dollar, p⟩ :: ts) =
    (expect e .leftBrace ts).bind fun (_, ts) ↦
      (referenceName e ts).bind fun (name, ts) ↦
        (expect e .rightBrace ts).bind fun (_, ts) ↦ .ok (.reference name, ts) := by
  rw [primary, Parse.primary]
  refine outcome_bind fun brace ↦ ?_
  refine outcome_bind fun name ↦ ?_
  exact outcome_bind fun close ↦ rfl

/-- What begins with a bracket is a capture or an array. -/
theorem primary_bracket (p : Position) :
    primary e (⟨.leftBracket, p⟩ :: ts) = bracketed e ts := by
  rw [primary, Parse.primary, bracketed]

/-- What follows the closing parenthesis of a value in parentheses: the target of a rule, or
nothing. -/
def target (e : Ending) (source : Term) (ts : List Located) : Outcome Term :=
  (taking e .arrow ts).bind fun
    | none => .ok (source, ts)
    | some ts => (expect e .leftParen ts).bind fun (_, ts) ↦
        (value e ts).bind fun (t, ts) ↦
          (expect e .rightParen ts).bind fun (_, ts) ↦ .ok (.rule source t, ts)

/-- What begins with a parenthesis is a value in parentheses, or a rule. -/
theorem primary_paren (p : Position) : primary e (⟨.leftParen, p⟩ :: ts) =
    (value e ts).bind fun (t, ts) ↦
      (expect e .rightParen ts).bind fun (_, ts) ↦ target e t ts := by
  rw [primary, Parse.primary]
  refine outcome_bind fun inner ↦ ?_
  refine outcome_bind fun close ↦ ?_
  refine outcome_accept rfl fun arrow ↦ ?_
  refine outcome_bind fun paren ↦ ?_
  refine outcome_bind fun t ↦ ?_
  exact outcome_bind fun close ↦ rfl

/-- What follows the closing parenthesis of a call: its internal listing, or nothing. -/
def internal (e : Ending) (name : String) (parameters : Listing Term) (ts : List Located) :
    Outcome Term :=
  (taking e .leftBrace ts).bind fun
    | none => .ok (.call name parameters none, ts)
    | some ts => (statements e ts).bind fun (es, ts) ↦
        (expect e .rightBrace ts).bind fun (_, ts) ↦ .ok (.call name parameters (some es), ts)

/-- **What follows a word**: the parameters of a call, or nothing. -/
theorem called_eq (name : String) : called e name ts =
    (taking e .leftParen ts).bind fun
      | none => .ok (.text name, ts)
      | some ts => (parameters e ts).bind fun (l, ts) ↦
          (expect e .rightParen ts).bind fun (_, ts) ↦ internal e name l ts := by
  rw [called, Parse.called]
  refine outcome_accept rfl fun paren ↦ ?_
  refine outcome_bind fun l ↦ ?_
  refine outcome_bind fun close ↦ ?_
  refine outcome_accept rfl fun brace ↦ ?_
  refine outcome_bind fun es ↦ ?_
  exact outcome_bind fun close ↦ rfl

/-! ### Arrays -/

/-- The items of an array and the bracket that closes it. -/
def items (e : Ending) (ts : List Located) : Outcome (List Term) :=
  (value e ts).bind fun (t, ts) ↦ (moreItems e ts).map fun (others, ts) ↦ (t :: others, ts)

/-- An array may be empty. -/
theorem bracketed_eq : bracketed e ts =
    (taking e .rightBracket ts).bind fun
      | none => captureOrItems e ts
      | some ts => .ok (.array [], ts) := by
  rw [bracketed, Parse.bracketed]
  exact outcome_accept (outcome_within _) fun close ↦ rfl

/-- A bare word alone between brackets is a capture. Otherwise it begins the first item. -/
theorem captureOrItems_word (word : String) (p : Position) :
    captureOrItems e (⟨.word word, p⟩ :: ts) =
      (taking e .rightBracket ts).bind fun
        | none => (items e (⟨.word word, p⟩ :: ts)).map fun (ts, us) ↦ (.array ts, us)
        | some ts => .ok (.capture word, ts) := by
  rw [captureOrItems, Parse.captureOrItems]
  refine outcome_accept ?_ fun close ↦ rfl
  -- The word is read once more as the start of the first item.
  show _ = (items e _).map _
  rw [items, value_eq, primary_word rfl]
  refine Eq.trans ?_ (congrArg _ (bind_assoc (m := Except Error) _ _ _).symm)
  refine Eq.trans (outcome_bind fun call ↦ ?_) (map_bind (m := Except Error) _ _ _).symm
  refine Eq.trans (outcome_bind fun first ↦ ?_) (map_bind (m := Except Error) _ _ _).symm
  exact Eq.trans (outcome_map fun others ↦ rfl) (Functor.map_map (f := Except Error) _ _ _).symm

/-- What does not begin with a bare word is an array of items. -/
theorem captureOrItems_eq (h : ∀ word p us, ts ≠ ⟨.word word, p⟩ :: us) :
    captureOrItems e ts = (items e ts).map fun (ts, us) ↦ (.array ts, us) := by
  rw [captureOrItems, Parse.captureOrItems]
  · refine Eq.trans (outcome_bind fun first ↦ ?_) (map_bind (m := Except Error) _ _ _).symm
    exact Eq.trans (outcome_map fun others ↦ rfl) (Functor.map_map (f := Except Error) _ _ _).symm
  · exact fun word p us hts ↦ h word p us hts

/-- Items go on behind a comma. -/
theorem moreItems_comma (p : Position) :
    moreItems e (⟨.comma, p⟩ :: ts) = items e ts := by
  rw [moreItems, Parse.moreItems]
  refine outcome_bind fun item ↦ ?_
  exact outcome_map fun others ↦ rfl

theorem moreItems_close (p : Position) :
    moreItems e (⟨.rightBracket, p⟩ :: ts) = .ok ([], ts) := by
  rw [moreItems, Parse.moreItems]
  rfl

/-- The items of an array go on with a comma or end with a bracket. -/
theorem eq_cons_of_moreItems {others : List Term} (h : moreItems e ts = .ok (others, us)) :
    ∃ p vs, ts = ⟨.comma, p⟩ :: vs ∨ ts = ⟨.rightBracket, p⟩ :: vs := by
  cases ts with
  | nil =>
    rw [moreItems, Parse.moreItems] at h
    cases h
  | cons t ts =>
    obtain ⟨token, p⟩ := t
    rw [moreItems, Parse.moreItems] at h
    cases token with
    | comma => exact ⟨p, ts, .inl rfl⟩
    | rightBracket => exact ⟨p, ts, .inr rfl⟩
    | _ => cases h

/-! ### Parameters -/

/-- Parameters may be missing in front of a closing parenthesis, or at the end. -/
theorem parameters_eq : parameters e ts =
    (peek e ts).bind fun k ↦
      if k = .rightParen ∨ k = .endOfInput then .ok ({}, ts) else moreParameters e {} ts := by
  rw [parameters, Parse.parameters]
  cases peek e ts with
  | error e => rfl
  | ok k =>
    simp only [bind, Except.bind, moreParameters, outcome, Except.map]
    cases Parse.moreParameters e {} ts <;> cases k <;> rfl

/-- **Parameters are read one by one**, and each has to go with those in front of it. -/
theorem moreParameters_eq (before : Listing Term) : moreParameters e before ts =
    (parameter e ts).bind fun (entry, us) ↦
      match before.push? entry with
      | none => .error (.syntactic .mixedParameters (positionOf e ts))
      | some list => (taking e .comma us).bind fun
          | none => .ok (list, us)
          | some us => moreParameters e list us := by
  rw [moreParameters, Parse.moreParameters]
  refine outcome_bind fun entry ↦ ?_
  cases hlist : before.push? entry.result with
  | none =>
    simp only [hlist]
    rfl
  | some list =>
    simp only [hlist]
    exact outcome_accept rfl fun comma ↦ outcome_within _

/-- **A parameter** is a value, or a value that is a text, an equals sign and a value. -/
theorem parameter_eq : parameter e ts =
    (value e ts).bind fun (first, us) ↦
      (taking e .equals us).bind fun
        | none => .ok (⟨.positional, [], first⟩, us)
        | some us =>
          match first.text? with
          | none => .error (.syntactic (.parameterName first) (positionOf e ts))
          | some name => (value e us).map fun (t, us) ↦ (⟨.named name, [], t⟩, us) := by
  rw [parameter, Parse.parameter]
  refine outcome_bind fun first ↦ ?_
  refine outcome_accept rfl fun equals ↦ ?_
  cases first.result.text? with
  | none =>
    rfl
  | some name =>
    exact outcome_map fun named ↦ rfl

/-! ### Statements -/

/-- What follows the value of a statement: a semicolon and more statements, or nothing. -/
def moreStatements (e : Ending) (entry : Entry Term) (ts : List Located) :
    Outcome (List (Entry Term)) :=
  (taking e .semicolon ts).bind fun
    | some ts => (statements e ts).map fun (es, ts) ↦ (entry :: es, ts)
    | none => (peek e ts).bind fun k ↦
        if k = .rightBrace ∨ k = .endOfInput then .ok ([entry], ts)
        else .error (.syntactic (.unexpected .semicolon k) (positionOf e ts))

theorem statements_eq : statements e ts =
    (peek e ts).bind fun k ↦
      if k = .rightBrace ∨ k = .endOfInput then .ok ([], ts)
      else (heading e [] ts).bind fun (label, ts) ↦
        (value e ts).bind fun (t, ts) ↦ moreStatements e ⟨label.1, label.2, t⟩ ts := by
  rw [statements, Parse.statements]
  cases peek e ts with
  | error e => rfl
  | ok k =>
    simp only [bind, Except.bind]
    split
    · rfl
    · rfl
    · next h₁ h₂ =>
      rw [if_neg (by rintro (h | h) <;> contradiction)]
      refine outcome_bind fun label ↦ ?_
      refine outcome_bind fun body ↦ ?_
      refine outcome_accept ?_ fun semicolon ↦ ?_
      · cases peek e body.rest with
        | error e => rfl
        | ok k => cases k <;> rfl
      · exact outcome_map fun others ↦ rfl

theorem heading_word {t : Located} {words : List String} {word : String}
    (h : t.token.text? = some word) :
    heading e words (t :: ts) = heading e (word :: words) ts := by
  rw [heading, heading, Parse.heading, h]
  exact outcome_within _

theorem heading_equals {words : List String} {label : Label × List String} (p : Position)
    (h : labelOf? words = some label) :
    heading e words (⟨.equals, p⟩ :: ts) = .ok (label, ts) := by
  rw [heading, Parse.heading]
  simp only [Token.text?, h]
  rfl

/-- A heading goes on with a word, or ends with `=` behind at least one word. -/
theorem eq_cons_of_heading {words : List String} {label : Label × List String}
    (h : heading e words ts = .ok (label, us)) :
    ∃ t vs, ts = t :: vs ∧ ((∃ word, t.token.text? = some word) ∨
      t.token = .equals ∧ labelOf? words = some label ∧ vs = us) := by
  cases ts with
  | nil =>
    rw [heading, Parse.heading] at h
    cases h
  | cons t ts =>
    refine ⟨t, ts, rfl, ?_⟩
    rw [heading, Parse.heading] at h
    cases ht : t.token.text? with
    | some word => exact .inl ⟨word, rfl⟩
    | none =>
      rw [ht] at h
      right
      simp only at h
      split at h
      · next found hfound =>
        cases h
        obtain ⟨htok, hlabel⟩ := Prod.ext_iff.1 hfound
        exact ⟨htok, hlabel, rfl⟩
      · cases h

end Outcome

end Parse

end TermRegistry
