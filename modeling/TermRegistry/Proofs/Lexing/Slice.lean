import TermRegistry.Proofs.Spelling

/-!
# Texts as sequences of slices

A text is cut into slices: runs of blank characters, and the pieces that are read as tokens. Each
slice is the longest one that can begin where it begins. `Splits` says so without the functions
that split a text; `Lexed.ofChars_of_splits` says that these functions find exactly such slices, and
`exists_splits` that every text has them, up to its end or to a character that begins none.
-/

namespace TermRegistry

/-! ### The text of a quoted word -/

namespace Text

/-- **What stands between two quotes, and the text it denotes.** A backslash and the character
behind it are one of the denoted text: a newline for `n`, a tab for `t`, otherwise the character
itself. -/
inductive Decodes : List Char → List Char → Prop
  | nil : Decodes [] []
  | plain {c : Char} {cs ds : List Char} (hquote : c ≠ '"') (hescape : c ≠ '\\')
      (h : Decodes cs ds) : Decodes (c :: cs) (c :: ds)
  | newline {cs ds : List Char} (h : Decodes cs ds) : Decodes ('\\' :: 'n' :: cs) ('\n' :: ds)
  | tab {cs ds : List Char} (h : Decodes cs ds) : Decodes ('\\' :: 't' :: cs) ('\t' :: ds)
  | escaped {c : Char} {cs ds : List Char} (hn : c ≠ 'n') (ht : c ≠ 't') (h : Decodes cs ds) :
      Decodes ('\\' :: c :: cs) (c :: ds)

theorem Decodes.unescape_eq {cs ds : List Char} (h : Decodes cs ds) : unescape cs = ds := by
  induction h with
  | nil => rfl
  | plain _ hescape _ ih =>
    rw [unescape, ih]
    exact fun _ _ hc _ ↦ hescape hc
  | newline _ ih => rw [unescape, ih]; rfl
  | tab _ ih => rw [unescape, ih]; rfl
  | escaped hn ht _ ih => rw [unescape, ih, unescapeChar, if_neg hn, if_neg ht]

/-- An escaped character denotes what it is decoded to. -/
theorem Decodes.escapedChar (c : Char) {cs ds : List Char} (h : Decodes cs ds) :
    Decodes ('\\' :: c :: cs) (unescapeChar c :: ds) := by
  by_cases hn : c = 'n'
  · subst hn
    exact .newline h
  by_cases ht : c = 't'
  · subst ht
    exact .tab h
  · rw [unescapeChar, if_neg hn, if_neg ht]
    exact .escaped hn ht h

/-- The quote behind a decodable text is the one that closes it. -/
theorem Decodes.closeQuote_eq {cs ds : List Char} (h : Decodes cs ds) (rest : List Char) :
    closeQuote (cs ++ '"' :: rest) = some (cs, rest) := by
  induction h with
  | nil => rfl
  | plain hquote hescape _ ih =>
    rw [List.cons_append, closeQuote, ih]
    · rfl
    · exact hquote
    · exact fun _ _ hc _ ↦ hescape hc
  | newline _ ih => rw [List.cons_append, List.cons_append, closeQuote, ih]; rfl
  | tab _ ih => rw [List.cons_append, List.cons_append, closeQuote, ih]; rfl
  | escaped _ _ _ ih => rw [List.cons_append, List.cons_append, closeQuote, ih]; rfl

/-- What is split off at a closing quote can be decoded. -/
theorem decodes_of_closeQuote {cs body rest : List Char} (h : closeQuote cs = some (body, rest)) :
    Decodes body (unescape body) := by
  fun_induction closeQuote cs generalizing body rest with
  | case1 => cases h
  | case2 =>
    cases h
    exact .nil
  | case3 c cs ih =>
    obtain ⟨⟨b, r⟩, hr, he⟩ := Option.map_eq_some_iff.1 h
    cases he
    exact (ih hr).escapedChar c
  | case4 c cs hquote hescape ih =>
    obtain ⟨⟨b, r⟩, hr, he⟩ := Option.map_eq_some_iff.1 h
    cases he
    -- A backslash at the very end of a text leaves nothing to close the quote.
    have hc : c ≠ '\\' := by
      rintro rfl
      cases cs with
      | nil => cases hr
      | cons d ds => exact hescape d ds rfl rfl
    rw [unescape]
    · exact .plain hquote hc (ih hr)
    · exact fun _ _ hc' _ ↦ hc hc'

end Text

/-! ### Slices -/

/-- A piece of a text, and the token it is read as, unless it is blank. -/
structure Slice where
  source : List Char
  token? : Option Token
deriving DecidableEq, Repr

namespace Slice

/-- **The slices there are.** The bare word `o` is one of its own, before all other bare words. -/
inductive Spelled : Slice → Prop
  | blank {cs : List Char} (hne : cs ≠ []) (h : ∀ c ∈ cs, Text.isBlank c = true) :
      Spelled ⟨cs, none⟩
  | mark {c : Char} {k : Token} (h : Token.ofMark? c = some k) : Spelled ⟨[c], some k⟩
  | arrow : Spelled ⟨['-', '>'], some .arrow⟩
  | quoted {cs ds : List Char} (h : Text.Decodes cs ds) :
      Spelled ⟨'"' :: (cs ++ ['"']), some (.quoted (String.ofList ds))⟩
  | compose : Spelled ⟨['o'], some .compose⟩
  | word {cs : List Char} (hne : cs ≠ []) (h : ∀ c ∈ cs, Text.isBare c = true)
      (ho : cs ≠ ['o']) : Spelled ⟨cs, some (.word (String.ofList cs))⟩

/-- In front of the given characters no longer slice begins where this one does. -/
def IsLongest (s : Slice) (rest : List Char) : Prop :=
  ∀ t : Slice, t.Spelled → t.source <+: s.source ++ rest → t.source.length ≤ s.source.length

end Slice

/-- **`Splits ss cs rest`**: reading slices off the front of `cs`, each as long as it can be, gives
`ss` and leaves `rest`. -/
inductive Splits : List Slice → List Char → List Char → Prop
  | nil (cs : List Char) : Splits [] cs cs
  | cons {s : Slice} {ss : List Slice} {cs rest : List Char} (hs : s.Spelled)
      (hlongest : s.IsLongest cs) (h : Splits ss cs rest) : Splits (s :: ss) (s.source ++ cs) rest

/-- **Where no slice begins**: at the end of a text, at a `-` that no `>` follows, and at a quote
that none closes. -/
inductive Stops : Option LexicalFault → List Char → Prop
  | finished : Stops none []
  | dash {cs : List Char} (h : ∀ ds, cs ≠ '>' :: ds) : Stops (some .danglingDash) ('-' :: cs)
  | quote {cs : List Char} (h : ∀ body ds rest, Text.Decodes body ds → cs ≠ body ++ '"' :: rest) :
      Stops (some .unclosedQuote) ('"' :: cs)

/-- **Nothing is lost**: a text is its slices, one behind the other, and what is left unread. -/
theorem Splits.eq_append {ss : List Slice} {cs rest : List Char} (h : Splits ss cs rest) :
    cs = ss.flatMap Slice.source ++ rest := by
  induction h with
  | nil => rfl
  | cons _ _ _ ih => rw [List.flatMap_cons, List.append_assoc, ← ih]

namespace Slice

/-! ### The first character of a slice -/

/-- What begins with a character. -/
inductive Kind
  | blank
  | mark (token : Token)
  | arrow
  | quoted
  | bare
deriving DecidableEq

/-- What begins with a given character. -/
def Kind.of (c : Char) : Kind :=
  if Text.isBlank c then blank
  else
    match Token.ofMark? c with
    | some token => mark token
    | none => if c = '-' then arrow else if c = '"' then quoted else bare

/-- The rest of a slice that begins with a given kind of character, and its token. -/
def Kind.Allows (c : Char) (cs : List Char) (token? : Option Token) : Kind → Prop
  | blank => token? = none ∧ ∀ d ∈ c :: cs, Text.isBlank d = true
  | mark token => token? = some token ∧ cs = []
  | arrow => token? = some .arrow ∧ c = '-' ∧ cs = ['>']
  | quoted => ∃ body ds, token? = some (.quoted (String.ofList ds)) ∧ Text.Decodes body ds ∧
      c = '"' ∧ cs = body ++ ['"']
  | bare => token? = some (Token.ofBare (String.ofList (c :: cs))) ∧
      ∀ d ∈ c :: cs, Text.isBare d = true

theorem Kind.of_blank {c : Char} (h : Text.isBlank c = true) : Kind.of c = blank := if_pos h

theorem Kind.of_mark {c : Char} {k : Token} (h : Token.ofMark? c = some k) :
    Kind.of c = mark k := by
  have hblank : ¬Text.isBlank c = true := by
    unfold Token.ofMark? at h
    split at h <;> first | decide | cases h
  rw [Kind.of, if_neg hblank, h]

theorem Kind.of_bare {c : Char} (h : Text.isBare c = true) : Kind.of c = bare := by
  have hblank : ¬Text.isBlank c = true := by
    rw [Text.isBare, Bool.and_eq_true, Bool.not_eq_true'] at h
    rw [h.1]
    exact Bool.false_ne_true
  have hdash : c ≠ '-' := by
    rintro rfl
    cases h
  have hquote : c ≠ '"' := by
    rintro rfl
    cases h
  simp only [Kind.of, hblank, Lexed.ofMark?_of_isBare h, hdash, hquote, if_false,
    Bool.false_eq_true]

/-- A character is blank, a mark, a dash, a quote or bare. -/
theorem Kind.of_cases (c : Char) :
    Text.isBlank c = true ∨ (∃ k, Token.ofMark? c = some k) ∨ c = '-' ∨ c = '"' ∨
      Text.isBare c = true := by
  by_cases hblank : Text.isBlank c = true
  · exact .inl hblank
  cases hmark : Token.ofMark? c with
  | some k => exact .inr (.inl ⟨k, rfl⟩)
  | none =>
    by_cases hdash : c = '-'
    · exact .inr (.inr (.inl hdash))
    by_cases hquote : c = '"'
    · exact .inr (.inr (.inr (.inl hquote)))
    · have hmark' : ∀ k, Token.ofMark? c ≠ some k := fun k ↦ by rw [hmark]; nofun
      exact .inr (.inr (.inr (.inr (Lexed.isBare_of_ofMark? hblank hmark' hdash hquote))))

/-- The `o` is bare. -/
theorem isBare_compose : ∀ c ∈ ['o'], Text.isBare c = true :=
  List.forall_mem_singleton.2 (by decide)

/-- A bare word as a list of characters is the `o` alone, or not. -/
theorem ofBare_ofList {cs : List Char} (h : cs ≠ ['o']) :
    Token.ofBare (String.ofList cs) = .word (String.ofList cs) := by
  rw [Token.ofBare, if_neg]
  intro ho
  exact h (by simpa [Text.composeWord] using congrArg String.toList ho)

/-- **The first character of a slice tells what the slice is.** -/
theorem Spelled.allows {s : Slice} (h : s.Spelled) :
    ∃ c cs, s.source = c :: cs ∧ (Kind.of c).Allows c cs s.token? := by
  cases h with
  | blank hne h =>
    obtain ⟨c, cs, rfl⟩ := List.exists_cons_of_ne_nil hne
    refine ⟨c, cs, rfl, ?_⟩
    rw [Kind.of_blank (h c List.mem_cons_self)]
    exact ⟨rfl, h⟩
  | @mark c k h =>
    refine ⟨c, [], rfl, ?_⟩
    rw [Kind.of_mark h]
    exact ⟨rfl, rfl⟩
  | arrow => exact ⟨'-', ['>'], rfl, rfl, rfl, rfl⟩
  | quoted h => exact ⟨'"', _, rfl, _, _, rfl, h, rfl, rfl⟩
  | compose =>
    refine ⟨'o', [], rfl, ?_⟩
    rw [Kind.of_bare (isBare_compose 'o' List.mem_cons_self)]
    exact ⟨rfl, isBare_compose⟩
  | word hne h ho =>
    obtain ⟨c, cs, rfl⟩ := List.exists_cons_of_ne_nil hne
    refine ⟨c, cs, rfl, ?_⟩
    rw [Kind.of_bare (h c List.mem_cons_self)]
    exact ⟨congrArg some (ofBare_ofList ho).symm, h⟩

/-- What a slice may be whose first character is known. -/
theorem Spelled.allows_of_prefix {s : Slice} {c : Char} {cs : List Char} (h : s.Spelled)
    (hpre : s.source <+: c :: cs) :
    ∃ ds, s.source = c :: ds ∧ ds <+: cs ∧ (Kind.of c).Allows c ds s.token? := by
  obtain ⟨d, ds, hsource, hallows⟩ := h.allows
  rw [hsource] at hpre
  obtain ⟨rfl, hds⟩ := List.cons_prefix_cons.1 hpre
  exact ⟨ds, hsource, hds, hallows⟩

/-! ### Every text has its slices -/

/-- Characters at the front of a text that all have a property are among the first ones that do. -/
theorem length_le_takeWhile {p : Char → Bool} {cs ds : List Char} (h : cs <+: ds)
    (hp : ∀ c ∈ cs, p c = true) : cs.length ≤ (ds.takeWhile p).length := by
  obtain ⟨rest, rfl⟩ := h
  rw [List.takeWhile_append_of_pos hp, List.length_append]
  exact Nat.le_add_right _ _

/-- A slice that begins with given characters, as long as it can be. -/
def Begins (s : Slice) (cs : List Char) : Prop :=
  s.Spelled ∧ ∃ rest, cs = s.source ++ rest ∧ s.IsLongest rest

theorem begins_blank {c : Char} (cs : List Char) (h : Text.isBlank c = true) :
    ∃ s : Slice, s.Begins (c :: cs) := by
  have htake : (c :: cs).takeWhile Text.isBlank = c :: cs.takeWhile Text.isBlank :=
    List.takeWhile_cons_of_pos h
  refine ⟨⟨(c :: cs).takeWhile Text.isBlank, none⟩, .blank (by rw [htake]; nofun)
    fun _ ↦ List.mem_takeWhile_imp, _, List.takeWhile_append_dropWhile.symm, fun t ht hpre ↦ ?_⟩
  rw [List.takeWhile_append_dropWhile] at hpre
  obtain ⟨ds, hsource, hds, hallows⟩ := ht.allows_of_prefix hpre
  rw [Kind.of_blank h] at hallows
  rw [hsource]
  exact length_le_takeWhile (List.cons_prefix_cons.2 ⟨rfl, hds⟩) hallows.2

theorem begins_mark {c : Char} {k : Token} (cs : List Char) (h : Token.ofMark? c = some k) :
    ∃ s : Slice, s.Begins (c :: cs) := by
  refine ⟨⟨[c], some k⟩, .mark h, cs, rfl, fun t ht hpre ↦ ?_⟩
  obtain ⟨ds, hsource, -, hallows⟩ := ht.allows_of_prefix hpre
  rw [Kind.of_mark h] at hallows
  rw [hsource, hallows.2]

theorem begins_arrow (cs : List Char) : ∃ s : Slice, s.Begins ('-' :: '>' :: cs) := by
  refine ⟨⟨['-', '>'], some .arrow⟩, .arrow, cs, rfl, fun t ht hpre ↦ ?_⟩
  obtain ⟨ds, hsource, -, -, -, rfl⟩ := ht.allows_of_prefix hpre
  exact (congrArg List.length hsource).le

theorem begins_quoted {cs body rest : List Char} (h : Text.closeQuote cs = some (body, rest)) :
    ∃ s : Slice, s.Begins ('"' :: cs) := by
  have hcs : '"' :: cs = '"' :: (body ++ ['"']) ++ rest := by
    rw [Text.eq_append_of_closeQuote h, List.cons_append, List.append_assoc,
      List.singleton_append]
  refine ⟨⟨'"' :: (body ++ ['"']), _⟩, .quoted (Text.decodes_of_closeQuote h), rest, hcs,
    fun t ht hpre ↦ ?_⟩
  rw [← hcs] at hpre
  obtain ⟨ds, hsource, ⟨after, rfl⟩, other, _, -, hother, -, rfl⟩ := ht.allows_of_prefix hpre
  -- Both end at the quote that closes them.
  have heq := hother.closeQuote_eq after
  rw [← List.singleton_append, ← List.append_assoc, h] at heq
  cases heq
  exact (congrArg List.length hsource).le

theorem begins_bare {c : Char} (cs : List Char) (h : Text.isBare c = true) :
    ∃ s : Slice, s.Begins (c :: cs) := by
  have htake : (c :: cs).takeWhile Text.isBare = c :: cs.takeWhile Text.isBare :=
    List.takeWhile_cons_of_pos h
  have hword : ∃ k, Spelled ⟨(c :: cs).takeWhile Text.isBare, k⟩ := by
    by_cases ho : (c :: cs).takeWhile Text.isBare = ['o']
    · rw [ho]
      exact ⟨_, .compose⟩
    · exact ⟨_, .word (by rw [htake]; nofun) (fun _ ↦ List.mem_takeWhile_imp) ho⟩
  obtain ⟨k, hk⟩ := hword
  refine ⟨_, hk, _, List.takeWhile_append_dropWhile.symm, fun t ht hpre ↦ ?_⟩
  rw [List.takeWhile_append_dropWhile] at hpre
  obtain ⟨ds, hsource, hds, hallows⟩ := ht.allows_of_prefix hpre
  rw [Kind.of_bare h] at hallows
  rw [hsource]
  exact length_le_takeWhile (List.cons_prefix_cons.2 ⟨rfl, hds⟩) hallows.2

/-- **Some slice begins a text, or the text stops there.** -/
theorem begins_or_stops (cs : List Char) :
    (∃ s : Slice, s.Begins cs) ∨ ∃ fault?, Stops fault? cs := by
  cases cs with
  | nil => exact .inr ⟨none, .finished⟩
  | cons c cs =>
    rcases Kind.of_cases c with h | ⟨k, h⟩ | rfl | rfl | h
    · exact .inl (begins_blank cs h)
    · exact .inl (begins_mark cs h)
    · by_cases harrow : ∃ ds, cs = '>' :: ds
      · obtain ⟨ds, rfl⟩ := harrow
        exact .inl (begins_arrow ds)
      · exact .inr ⟨_, .dash (not_exists.1 harrow)⟩
    · cases h : Text.closeQuote cs with
      | some split => exact .inl (begins_quoted h)
      | none =>
        refine .inr ⟨_, .quote fun body ds rest hbody hcs ↦ ?_⟩
        rw [hcs, hbody.closeQuote_eq] at h
        cases h
    · exact .inl (begins_bare cs h)

/-- A slice without a token is blank. -/
theorem Spelled.source_blank {s : Slice} (h : s.Spelled) (hnone : s.token? = none) :
    ∀ c ∈ s.source, Text.isBlank c = true := by
  cases h with
  | blank _ hblank => exact hblank
  | _ => cases hnone

/-- A quoted word denotes what stands between its quotes. -/
theorem Spelled.source_quoted {s : Slice} {word : String} (h : s.Spelled)
    (hword : s.token? = some (.quoted word)) :
    ∃ body, s.source = '"' :: (body ++ ['"']) ∧ Text.Decodes body word.toList := by
  cases h with
  | quoted hbody =>
    cases hword
    exact ⟨_, rfl, by rwa [String.toList_ofList]⟩
  | mark hmark =>
    unfold Token.ofMark? at hmark
    split at hmark <;> cases hmark <;> cases hword
  | _ => cases hword

theorem Spelled.source_ne_nil {s : Slice} (h : s.Spelled) : s.source ≠ [] := by
  obtain ⟨c, cs, hsource, -⟩ := h.allows
  rw [hsource]
  exact List.cons_ne_nil c cs

end Slice

/-- **Every text has its slices**, up to a place where none begins. -/
theorem exists_splits (cs : List Char) :
    ∃ ss rest fault?, Splits ss cs rest ∧ Stops fault? rest := by
  induction hn : cs.length using Nat.strong_induction_on generalizing cs with
  | h n ih =>
    rcases Slice.begins_or_stops cs with ⟨s, hs, rest, rfl, hlongest⟩ | ⟨fault?, hstops⟩
    · have hlt : rest.length < n := by
        have := List.length_pos_iff.2 hs.source_ne_nil
        rw [← hn, List.length_append]
        omega
      obtain ⟨ss, rest', fault?, hsplits, hstops⟩ := ih rest.length hlt rest rfl
      exact ⟨s :: ss, rest', fault?, .cons hs hlongest hsplits, hstops⟩
    · exact ⟨[], cs, fault?, .nil cs, hstops⟩

/-! ### The tokens of slices -/

namespace Slice

/-- The tokens of slices that follow one another from a given position. -/
def locate : Position → List Slice → List Located
  | _, [] => []
  | p, s :: ss => (s.token?.map fun k ↦ ⟨k, p⟩).toList ++ locate (p.after s.source) ss

/-- In front of which characters a bare word ends. -/
theorem IsLongest.isBare_false {s : Slice} {d : Char} {rest : List Char}
    (h : s.IsLongest (d :: rest)) (hne : s.source ≠ [])
    (hs : ∀ c ∈ s.source, Text.isBare c = true) : Text.isBare d = false := by
  refine Bool.eq_false_iff.2 fun hd ↦ ?_
  -- With the next character the word would still be one.
  have hlonger : ∃ k, Spelled ⟨s.source ++ [d], k⟩ := by
    refine ⟨_, .word (by simp) (fun c hc ↦ ?_) fun ho ↦ ?_⟩
    · rcases List.mem_append.1 hc with hc | hc
      · exact hs c hc
      · exact List.mem_singleton.1 hc ▸ hd
    · have := congrArg List.length ho
      rw [List.length_append, List.length_singleton, List.length_singleton] at this
      exact hne (List.length_eq_zero_iff.1 (by omega))
  obtain ⟨k, hk⟩ := hlonger
  have := h _ hk ⟨rest, by rw [List.append_assoc]; rfl⟩
  rw [List.length_append, List.length_singleton] at this
  omega

end Slice

namespace Lexed

open Slice

/-- Blank characters only move the position. -/
theorem ofChars_blanks {cs : List Char} (p : Position) (rest : List Char)
    (h : ∀ c ∈ cs, Text.isBlank c = true) :
    ofChars p (cs ++ rest) = ofChars (p.after cs) rest := by
  induction cs generalizing p with
  | nil => rfl
  | cons c cs ih =>
    rw [List.cons_append, ofChars_blank _ _ (h c List.mem_cons_self),
      ih _ fun d hd ↦ h d (List.mem_cons_of_mem c hd), Position.after_cons]

/-- A bare word is read as one token. -/
theorem ofChars_bareSlice {s : Slice} (p : Position) {rest : List Char} (hne : s.source ≠ [])
    (hs : ∀ c ∈ s.source, Text.isBare c = true) (hlongest : s.IsLongest rest) :
    ofChars p (s.source ++ rest) =
      cons (Token.ofBare (String.ofList s.source)) p (ofChars (p.after s.source) rest) := by
  have hstop : ∀ d ds, rest = d :: ds → Text.isBare d = false := by
    rintro d ds rfl
    exact hlongest.isBare_false hne hs
  obtain ⟨c, cs, hsource⟩ := List.exists_cons_of_ne_nil hne
  rw [hsource] at hs ⊢
  exact ofChars_bare p (List.all_eq_true.2 hs) hstop

/-- **One slice is read at a time.** -/
theorem ofChars_slice {s : Slice} (p : Position) {rest : List Char} (hs : s.Spelled)
    (hlongest : s.IsLongest rest) :
    ofChars p (s.source ++ rest) =
      (ofChars (p.after s.source) rest).prepend (s.token?.map fun k ↦ ⟨k, p⟩).toList := by
  cases hs with
  | blank _ h => exact ofChars_blanks p rest h
  | mark h => exact ofChars_mark p rest h
  | arrow => exact ofChars_arrow p rest
  | @quoted cs ds h =>
    show ofChars p ('"' :: (cs ++ ['"'] ++ rest)) = _
    rw [List.append_assoc, List.singleton_append, ofChars_quoted p _ rest (h.closeQuote_eq rest),
      h.unescape_eq]
    rfl
  | compose => exact ofChars_bareSlice p (List.cons_ne_nil 'o' []) isBare_compose hlongest
  | word hne h ho =>
    rw [ofChars_bareSlice p hne h hlongest, ofBare_ofList ho]
    rfl

theorem ofChars_of_stops {fault? : Option LexicalFault} {cs : List Char} (p : Position)
    (h : Stops fault? cs) : ofChars p cs = ⟨[], p, fault?⟩ := by
  cases h with
  | finished => rw [ofChars]
  | dash h => exact ofChars_dash p _ h
  | @quote cs h =>
    refine ofChars_unclosed p cs (Option.eq_none_iff_forall_ne_some.2 fun split hsplit ↦ ?_)
    exact h split.1 _ split.2 (Text.decodes_of_closeQuote hsplit)
      (Text.eq_append_of_closeQuote hsplit)

/-- **The tokens of a text are those of its slices**, and they stop where the slices do. -/
theorem ofChars_of_splits {ss : List Slice} {cs rest : List Char} {fault? : Option LexicalFault}
    (p : Position) (hs : Splits ss cs rest) (hstops : Stops fault? rest) :
    ofChars p cs = ⟨locate p ss, p.after (ss.flatMap Slice.source), fault?⟩ := by
  induction hs generalizing p with
  | nil => exact ofChars_of_stops p hstops
  | cons hs hlongest _ ih =>
    rw [ofChars_slice p hs hlongest, ih _ hstops, List.flatMap_cons, Position.after_append]
    rfl

end Lexed

end TermRegistry
