import TermRegistry.Proofs.Lexing.Place

/-!
# Words as they are written are read back

A text written between quotes is one token, whatever stands behind it. A text written as a word,
bare where it can be, is one token in front of everything that cannot go on with a bare word. What
stands behind is split into tokens on its own, as it would be at the start of a text; only its
positions are counted from where it begins (`Lexed.ofChars_eq_shift`). So `Text.quoted` and
`Text.word` can be used in front of any text, and what they write denotes the text that was written
(`words_read_back`).
-/

namespace TermRegistry

/-! ### Positions behind a text -/

/-- A position, counted in a text that begins at another one. The first line of that text goes on
with the line in which it begins. -/
def Position.shift (p q : Position) : Position :=
  if q.line = 1 then ⟨p.line, p.column + q.column - 1⟩ else ⟨p.line + q.line - 1, q.column⟩

/-- The next position is the next one in both ways of counting. -/
theorem Position.next_shift {p q : Position} (hline : 1 ≤ q.line) (hcolumn : 1 ≤ q.column)
    (c : Char) : (p.shift q).next c = p.shift (q.next c) := by
  obtain ⟨line, column⟩ := q
  dsimp only at hline hcolumn
  by_cases hc : c = '\n'
  · have hlater : line + 1 ≠ 1 := by omega
    simp only [next, if_pos hc, shift, if_neg hlater, mk.injEq, and_true]
    split
    all_goals
      dsimp only
      omega
  · simp only [next, if_neg hc, shift]
    split
    · simp only [mk.injEq, true_and]
      omega
    · rfl

/-- **Counting along from a position** comes to the place counted from there. -/
theorem Position.after_eq_shift (p : Position) (cs : List Char) :
    p.after cs = p.shift (place cs) := by
  induction cs using List.reverseRecOn with
  | nil => rfl
  | append_singleton cs c ih =>
    have hplace : place (cs ++ [c]) = (place cs).next c := by
      rw [← after_eq_place, after_append, after_eq_place]
      rfl
    rw [after_append, ih, hplace]
    exact next_shift (Nat.le_add_right 1 _) (Nat.le_add_right 1 _) c

/-- What is read of a text, its positions counted in one that begins elsewhere. -/
def Lexed.shift (p : Position) (lexed : Lexed) : Lexed :=
  ⟨lexed.tokens.map fun t ↦ ⟨t.token, p.shift t.position⟩,
    ⟨p.shift lexed.ending.position, lexed.ending.fault?⟩⟩

/-- Slices that follow one another are located from wherever they begin. -/
theorem Slice.locate_eq_shift (p : Position) (before : List Char) (ss : List Slice) :
    locate (p.after before) ss =
      (locate (.place before) ss).map fun t ↦ ⟨t.token, p.shift t.position⟩ := by
  induction ss generalizing before with
  | nil => rfl
  | cons s ss ih =>
    have hplace : (Position.place before).after s.source = .place (before ++ s.source) := by
      rw [← Position.after_eq_place, ← Position.after_append, Position.after_eq_place]
    rw [locate, locate, List.map_append, hplace, ← ih, Position.after_append,
      Position.after_eq_shift p before]
    cases s.token? <;> rfl

/-- **A text is split in the same way wherever it begins**, positions aside. -/
theorem Lexed.ofChars_eq_shift (p : Position) (cs : List Char) :
    ofChars p cs = (ofChars {} cs).shift p := by
  obtain ⟨ss, rest, fault?, hs, hstops⟩ := exists_splits cs
  rw [ofChars_of_splits p hs hstops, ofChars_of_splits {} hs hstops, shift,
    Position.after_eq_place, ← Position.after_eq_shift]
  exact congrArg (Lexed.mk · _) (Slice.locate_eq_shift p [] ss)

/-! ### Written words -/

/-- A written word in front of a text, if it is one token there. -/
theorem Lexed.ofString_append {w r : String} {k : Token}
    (h : ofChars {} (w.toList ++ r.toList) =
      cons k {} (ofChars (Position.after {} w.toList) r.toList)) :
    ofString (w ++ r) = cons k {} ((ofString r).shift (.place w.toList)) := by
  rw [ofString, String.toList_append, h, Position.after_eq_place, ofChars_eq_shift]
  rfl

/-- **Written words are read back.** Between quotes, a text is one quoted token, whatever follows.
As a word, it is one token, a word or a quoted one, where nothing follows or a character that is
blank or a mark. Behind that token come the tokens of what follows, or its lexical fault. -/
theorem words_read_back (s r : String) :
    Lexed.ofString (Text.quoted s ++ r) =
      .cons (.quoted s) {} ((Lexed.ofString r).shift (.place (Text.quoted s).toList)) ∧
    ((∀ c ∈ r.toList.head?, Text.isBlank c = true ∨ Text.isMark c = true) →
      ∃ k, (k = .word s ∨ k = .quoted s) ∧
        Lexed.ofString (Text.word s ++ r) =
          .cons k {} ((Lexed.ofString r).shift (.place (Text.word s).toList))) := by
  have hquoted := Lexed.ofString_append (Lexed.ofChars_quotedWord {} s r.toList)
  refine ⟨hquoted, fun hr ↦ ?_⟩
  rw [Text.word]
  split
  · next hs =>
    have hstop : ∀ d ds, r.toList = d :: ds → Text.isBare d = false := by
      intro d ds hd
      rw [Text.isBare, Bool.and_eq_false_iff, Bool.not_eq_false', Bool.not_eq_false']
      exact hr d (by rw [hd]; rfl)
    exact ⟨_, .inl rfl, Lexed.ofString_append (Lexed.ofChars_plainWord {} hs hstop)⟩
  · exact ⟨_, .inr rfl, hquoted⟩

/-- An `o` is written between quotes, and an arrow behind it is read as an arrow. -/
theorem words_read_back_arrow :
    (∀ c ∈ "->\n(o)".toList.head?, Text.isBlank c = true ∨ Text.isMark c = true) ∧
    ∃ k, (k = .word "o" ∨ k = .quoted "o") ∧
      Lexed.ofString (Text.word "o" ++ "->\n(o)") =
        .cons k {} ((Lexed.ofString "->\n(o)").shift (.place (Text.word "o").toList)) := by
  have hfirst : ∀ c ∈ "->\n(o)".toList.head?, Text.isBlank c = true ∨ Text.isMark c = true := by
    rintro _ ⟨⟩
    exact .inr rfl
  exact ⟨hfirst, (words_read_back "o" "->\n(o)").2 hfirst⟩

end TermRegistry
