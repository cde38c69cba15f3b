import TermRegistry.Token.Lexer
import Mathlib.Data.List.TakeWhile

/-!
# How tokens are spelled

`Spells s w` says that the text `s` is split into the tokens `w` wherever it stands: whatever is in
front of it only moves the positions, and whatever is behind it is split on its own. Punctuation and
quoted words are such texts; a bare word is one as soon as something follows that cannot continue
it, which is what `Spells.word` says of the words that are written before other things.

In the other direction, `isPlainWord_of_mem` says which words can come out of a text at all: the
plain ones.
-/

namespace TermRegistry

namespace Lexed

/-- Puts tokens in front. -/
def prepend (ls : List Located) (lexed : Lexed) : Lexed :=
  { lexed with tokens := ls ++ lexed.tokens }

theorem prepend_append (ls ms : List Located) (lexed : Lexed) :
    prepend (ls ++ ms) lexed = prepend ls (prepend ms lexed) := by
  rw [prepend, prepend, prepend, List.append_assoc]

/-! ### One token -/

section

variable {c : Char} (p : Position) (cs rest : List Char)

theorem ofChars_blank (h : Text.isBlank c = true) :
    ofChars p (c :: cs) = ofChars (p.next c) cs := by
  rw [ofChars.eq_def]
  exact if_pos h

theorem ofChars_mark {k : Token} (h : Token.ofMark? c = some k) :
    ofChars p (c :: cs) = cons k p (ofChars (p.next c) cs) := by
  have hblank : ¬Text.isBlank c = true := by
    unfold Token.ofMark? at h
    split at h <;> first | decide | cases h
  rw [ofChars.eq_def]
  simp only [hblank, h]
  rfl

theorem ofChars_arrow :
    ofChars p ('-' :: '>' :: cs) = cons .arrow p (ofChars ((p.next '-').next '>') cs) := by
  rw [ofChars.eq_def]
  rfl

/-- A dash that no `>` follows is a fault. -/
theorem ofChars_dash (h : ∀ ds, cs ≠ '>' :: ds) :
    ofChars p ('-' :: cs) = stopped .danglingDash p := by
  have hblank : Text.isBlank '-' = false := by decide
  have hmark : Token.ofMark? '-' = none := rfl
  rw [ofChars.eq_def]
  -- That the arrow does not match is found among the hypotheses.
  simp only [hblank, hmark, if_false, if_true, Bool.false_eq_true]

/-- A quote that none closes is a fault. -/
theorem ofChars_unclosed (h : Text.closeQuote cs = none) :
    ofChars p ('"' :: cs) = stopped .unclosedQuote p := by
  have hblank : Text.isBlank '"' = false := by decide
  have hmark : Token.ofMark? '"' = none := rfl
  rw [ofChars.eq_def]
  simp only [hblank, hmark, Char.reduceEq, if_false, if_true, Bool.false_eq_true]
  split
  · next h' =>
    rw [h] at h'
    cases h'
  · rfl

/-- A quote and what follows it up to the quote that closes it are one token. -/
theorem ofChars_quoted {body : List Char} (h : Text.closeQuote cs = some (body, rest)) :
    ofChars p ('"' :: cs) =
      cons (.quoted (String.ofList (Text.unescape body))) p
        (ofChars ((p.next '"').after (body ++ ['"'])) rest) := by
  have hblank : Text.isBlank '"' = false := by decide
  have hmark : Token.ofMark? '"' = none := rfl
  rw [ofChars.eq_def]
  simp only [hblank, hmark, Char.reduceEq, if_false, if_true, Bool.false_eq_true]
  split
  · next h' =>
    rw [h] at h'
    cases h'
    rfl
  · next h' =>
    rw [h] at h'
    cases h'

end

/-! ### Bare words -/

/-- A bare character is no mark. -/
theorem ofMark?_of_isBare {c : Char} (h : Text.isBare c = true) : Token.ofMark? c = none := by
  unfold Token.ofMark?
  split <;> first | rfl | cases h

/-- A character that is neither blank nor begins another token is bare. -/
theorem isBare_of_ofMark? {c : Char} (hblank : ¬Text.isBlank c = true)
    (hmark : ∀ k, Token.ofMark? c ≠ some k) (hdash : c ≠ '-') (hquote : c ≠ '"') :
    Text.isBare c = true := by
  -- All marks but the dash and the quote are tokens of their own.
  have hisMark : Text.isMark c = false := by
    refine Bool.eq_false_iff.2 fun h ↦ ?_
    rw [Text.isMark, List.contains_iff_mem] at h
    simp only [List.mem_cons, List.not_mem_nil, or_false] at h
    rcases h with rfl | rfl | rfl | rfl | rfl | rfl | rfl | rfl | rfl | rfl | rfl | rfl
    all_goals first | exact hmark _ rfl | exact hquote rfl | exact hdash rfl
  rw [Text.isBare, hisMark, Bool.eq_false_iff.2 hblank]
  rfl

/-- A word of bare characters, in front of what cannot continue it, is one token. -/
theorem ofChars_bare {c : Char} {cs rest : List Char} (p : Position)
    (h : (c :: cs).all Text.isBare = true)
    (hrest : ∀ d ds, rest = d :: ds → Text.isBare d = false) :
    ofChars p (c :: cs ++ rest) =
      cons (Token.ofBare (String.ofList (c :: cs))) p (ofChars ((p.next c).after cs) rest) := by
  have hall := List.all_eq_true.1 h
  have hc := hall c List.mem_cons_self
  have hblank : ¬Text.isBlank c = true := by
    rw [Text.isBare, Bool.and_eq_true, Bool.not_eq_true'] at hc
    rw [hc.1]
    exact Bool.false_ne_true
  have hdash : c ≠ '-' := by
    rintro rfl
    cases hc
  have hquote : c ≠ '"' := by
    rintro rfl
    cases hc
  have htail : ∀ d ∈ cs, Text.isBare d = true := fun d hd ↦ hall d (List.mem_cons_of_mem c hd)
  -- The word ends where the rest begins.
  have htake : (cs ++ rest).takeWhile Text.isBare = cs := by
    rw [List.takeWhile_append_of_pos htail]
    cases rest with
    | nil => simp
    | cons d ds => rw [List.takeWhile_cons_of_neg (by simp [hrest d ds rfl]), List.append_nil]
  have hdrop : (cs ++ rest).dropWhile Text.isBare = rest := by
    rw [List.dropWhile_append_of_pos htail]
    cases rest with
    | nil => rfl
    | cons d ds => rw [List.dropWhile_cons_of_neg (by simp [hrest d ds rfl])]
  rw [List.cons_append, ofChars.eq_def]
  simp only [hblank, ofMark?_of_isBare hc, hdash, hquote, htake, hdrop]
  rfl

end Lexed

/-- A plain word is not empty and is read as a word. -/
theorem Token.ofBare_of_isPlainWord {s : String} (h : Text.isPlainWord s = true) :
    Token.ofBare s = .word s := by
  rw [Text.isPlainWord, Bool.and_eq_true, Bool.and_eq_true, bne_iff_ne, bne_iff_ne] at h
  rw [Token.ofBare, if_neg h.1.2]

/-! ### Words as they are written -/

namespace Lexed

/-- A text between quotes is one token wherever it stands. -/
theorem ofChars_quotedWord (p : Position) (s : String) (rest : List Char) :
    ofChars p ((Text.quoted s).toList ++ rest) =
      cons (.quoted s) p (ofChars (p.after (Text.quoted s).toList) rest) := by
  rw [Text.quoted, String.toList_ofList, List.cons_append, List.append_assoc, List.singleton_append,
    ofChars_quoted p _ rest (Text.closeQuote_escape s.toList rest), Text.unescape_escape,
    String.ofList_toList]
  rfl

/-- A plain word is one token in front of what cannot continue it. -/
theorem ofChars_plainWord {s : String} {rest : List Char} (p : Position)
    (hs : Text.isPlainWord s = true)
    (hrest : ∀ d ds, rest = d :: ds → Text.isBare d = false) :
    ofChars p (s.toList ++ rest) = cons (.word s) p (ofChars (p.after s.toList) rest) := by
  have hplain := hs
  rw [Text.isPlainWord, Bool.and_eq_true, Bool.and_eq_true, bne_iff_ne, bne_iff_ne] at hplain
  obtain ⟨⟨hne, -⟩, hall⟩ := hplain
  cases hchars : s.toList with
  | nil => exact absurd (String.toList_eq_nil_iff.1 hchars) hne
  | cons c cs =>
    rw [hchars] at hall
    rw [ofChars_bare p hall hrest, ← hchars, String.ofList_toList,
      Token.ofBare_of_isPlainWord hs, hchars]
    rfl

end Lexed

/-! ### Texts that spell tokens -/

/-- **A text spells some tokens** if it is split into them wherever it stands. -/
def Spells (s : String) (w : List Token) : Prop :=
  ∀ (p : Position) (rest : List Char), ∃ ls q, ls.map Located.token = w ∧
    Lexed.ofChars p (s.toList ++ rest) = (Lexed.ofChars q rest).prepend ls

namespace Spells

open Lexed

variable {s t : String} {v w : List Token}

theorem empty : Spells "" [] :=
  fun p _ ↦ ⟨[], p, rfl, rfl⟩

theorem append (hs : Spells s v) (ht : Spells t w) : Spells (s ++ t) (v ++ w) := by
  intro p rest
  obtain ⟨ls, q, rfl, hls⟩ := hs p (t.toList ++ rest)
  obtain ⟨ms, r, rfl, hms⟩ := ht q rest
  refine ⟨ls ++ ms, r, List.map_append, ?_⟩
  rw [String.toList_append, List.append_assoc, hls, hms, prepend_append]

/-- A text that spells tokens is split into them, without a fault. -/
theorem ofString (h : Spells s w) :
    (Lexed.ofString s).ending.fault? = none ∧ (Lexed.ofString s).tokens.map (·.token) = w := by
  obtain ⟨ls, q, rfl, hls⟩ := h {} []
  rw [List.append_nil] at hls
  rw [Lexed.ofString, hls, ofChars]
  exact ⟨rfl, congrArg _ (List.append_nil ls)⟩

/-! ### Punctuation -/

/-- The tokens of a text that is made of blanks, marks and arrows alone. -/
def ofPunctuation? : List Char → Option (List Token)
  | [] => some []
  | '-' :: '>' :: cs => (ofPunctuation? cs).map (.arrow :: ·)
  | c :: cs =>
    if Text.isBlank c then ofPunctuation? cs
    else (Token.ofMark? c).bind fun k ↦ (ofPunctuation? cs).map (k :: ·)

/-- Punctuation is split into its marks wherever it stands. -/
theorem ofChars_punctuation {cs : List Char} (h : ofPunctuation? cs = some w) (p : Position)
    (rest : List Char) : ∃ ls q, ls.map Located.token = w ∧
      ofChars p (cs ++ rest) = (ofChars q rest).prepend ls := by
  fun_induction ofPunctuation? cs generalizing w p with
  | case1 =>
    cases h
    exact ⟨[], p, rfl, rfl⟩
  | case2 cs ih =>
    obtain ⟨v, hv, rfl⟩ := Option.map_eq_some_iff.1 h
    obtain ⟨ls, q, rfl, hls⟩ := ih hv ((p.next '-').next '>')
    refine ⟨⟨.arrow, p⟩ :: ls, q, rfl, ?_⟩
    rw [List.cons_append, List.cons_append, ofChars_arrow, hls]
    rfl
  | case3 c cs _ hblank ih =>
    obtain ⟨ls, q, rfl, hls⟩ := ih h (p.next c)
    exact ⟨ls, q, rfl, by rw [List.cons_append, ofChars_blank _ _ hblank, hls]⟩
  | case4 c cs _ _ ih =>
    obtain ⟨k, hk, hmap⟩ := Option.bind_eq_some_iff.1 h
    obtain ⟨v, hv, rfl⟩ := Option.map_eq_some_iff.1 hmap
    obtain ⟨ls, q, rfl, hls⟩ := ih hv (p.next c)
    refine ⟨⟨k, p⟩ :: ls, q, rfl, ?_⟩
    rw [List.cons_append, ofChars_mark _ _ hk, hls]
    rfl

theorem punctuation (h : ofPunctuation? s.toList = some w) : Spells s w :=
  ofChars_punctuation h

/-! ### Words -/

theorem quoted (s : String) : Spells (Text.quoted s) [.quoted s] :=
  fun p rest ↦ ⟨[⟨.quoted s, p⟩], p.after (Text.quoted s).toList, rfl, ofChars_quotedWord p s rest⟩

/-- The `o` of a composition, between blanks. -/
theorem compose : Spells " o " [.compose] := by
  intro p rest
  have hstop : ∀ d ds, ' ' :: rest = d :: ds → Text.isBare d = false := by
    rintro _ _ h
    cases h
    decide
  have hbare : ['o'].all Text.isBare = true := by decide
  refine ⟨[⟨.compose, p.next ' '⟩], p.after " o ".toList, rfl, ?_⟩
  show ofChars p (' ' :: ('o' :: [] ++ ' ' :: rest)) = _
  rw [ofChars_blank _ _ (by decide), ofChars_bare _ hbare hstop, ofChars_blank _ _ (by decide)]
  rfl

end Spells

/-- The token that a word is written as: bare where that reads back, quoted otherwise. -/
def Token.ofWord (s : String) : Token :=
  if Text.isPlainWord s then .word s else .quoted s

@[simp] theorem Token.text?_ofWord (s : String) : (Token.ofWord s).text? = some s := by
  rw [Token.ofWord]
  split <;> rfl

/-- A plain word in front of a text that does not go on with it. -/
theorem Spells.plain {s t : String} {w : List Token} (hs : Text.isPlainWord s = true)
    (ht : Spells t w) (hfirst : ∃ c cs, t.toList = c :: cs ∧ Text.isBare c = false) :
    Spells (s ++ t) (.word s :: w) := by
  intro p rest
  obtain ⟨d, ds, htd, hd⟩ := hfirst
  have hstop : ∀ e es, t.toList ++ rest = e :: es → Text.isBare e = false := by
    rw [htd]
    rintro _ _ h
    cases h
    exact hd
  obtain ⟨ls, r, rfl, hls⟩ := ht (p.after s.toList) rest
  refine ⟨⟨.word s, p⟩ :: ls, r, rfl, ?_⟩
  rw [String.toList_append, List.append_assoc, Lexed.ofChars_plainWord p hs hstop, hls]
  rfl

/-- **A word as it is written**, in front of a text that does not go on with it. -/
theorem Spells.word {t : String} {w : List Token} (s : String) (ht : Spells t w)
    (hfirst : ∃ c cs, t.toList = c :: cs ∧ Text.isBare c = false) :
    Spells (Text.word s ++ t) (Token.ofWord s :: w) := by
  rw [Text.word, Token.ofWord]
  split
  · next hs => exact ht.plain hs hfirst
  · exact (Spells.quoted s).append ht

/-! ### The words of a text -/

/-- **The bare words of a text are plain.** -/
theorem Lexed.isPlainWord_of_mem {p : Position} {cs : List Char} {t : Located} {s : String}
    (h : t ∈ (ofChars p cs).tokens) (ht : t.token = .word s) : Text.isPlainWord s = true := by
  fun_induction ofChars p cs with
  | case1 => cases h
  | case2 p c cs _ ih => exact ih h
  | case3 p c cs _ k hk ih =>
    rcases List.mem_cons.1 h with rfl | h
    · cases ht
      unfold Token.ofMark? at hk
      split at hk <;> cases hk
    · exact ih h
  | case4 p _ _ rest ih =>
    rcases List.mem_cons.1 h with rfl | h
    · cases ht
    · exact ih h
  | case5 => cases h
  | case6 p cs body rest _ _ _ _ ih =>
    rcases List.mem_cons.1 h with rfl | h
    · cases ht
    · exact ih h
  | case7 => cases h
  | case8 p c cs hblank hdash hquote tail hmark ih =>
    rcases List.mem_cons.1 h with rfl | h
    -- Bare words come from here alone, and an `o` by itself is none.
    · have hc := isBare_of_ofMark? hblank hmark hdash hquote
      rw [Token.ofBare] at ht
      split at ht
      · cases ht
      · next ho =>
        cases ht
        have hall : (c :: tail).all Text.isBare = true :=
          List.all_cons.trans (by rw [hc, List.all_takeWhile]; rfl)
        rw [Text.isPlainWord, String.toList_ofList, hall, Bool.and_true, Bool.and_eq_true,
          bne_iff_ne, bne_iff_ne]
        exact ⟨fun h ↦ List.cons_ne_nil c tail (String.ofList_eq_empty_iff.1 h), ho⟩
    · exact ih h

end TermRegistry
