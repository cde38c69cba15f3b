import TermRegistry.Text.Blank

/-!
# Bare and quoted words

A word is written bare when it can be read back as it stands, and between double quotes
otherwise. Inside the quotes four characters are escaped by a backslash: the quote, the
backslash, the newline (`\n`) and the tab (`\t`); on reading, any other escaped character stands
for itself. `unescape_escape` says that reading undoes writing, and `closeQuote_escape` that the
quote which closes a written text is the one that was put there.
-/

namespace TermRegistry.Text

/-! ### Bare words -/

/-- The characters that have a meaning of their own outside quotes. -/
def isMark (c : Char) : Bool :=
  [',', '=', ';', '[', ']', '{', '}', '(', ')', '$', '"', '-'].contains c

/-- The characters a bare word is made of: neither blank nor a mark. -/
def isBare (c : Char) : Bool :=
  !isBlank c && !isMark c

/-- The bare word that denotes composition, and so is never read as a name. -/
def composeWord : String := "o"

/-- **Plain words**: the texts that read back as one word when written bare. -/
def isPlainWord (s : String) : Bool :=
  s != "" && s != composeWord && s.toList.all isBare

/-! ### Quoted words -/

/-- The text between the quotes of a quoted word. -/
def escape : List Char → List Char
  | [] => []
  | c :: cs =>
    if c = '"' then '\\' :: '"' :: escape cs
    else if c = '\\' then '\\' :: '\\' :: escape cs
    else if c = '\n' then '\\' :: 'n' :: escape cs
    else if c = '\t' then '\\' :: 't' :: escape cs
    else c :: escape cs

/-- The character that a backslash followed by `c` stands for. -/
def unescapeChar (c : Char) : Char :=
  if c = 'n' then '\n' else if c = 't' then '\t' else c

/-- The text that stands between quotes, with its escapes resolved. -/
def unescape : List Char → List Char
  | [] => []
  | '\\' :: c :: cs => unescapeChar c :: unescape cs
  | c :: cs => c :: unescape cs

/-- Splits the characters after an opening quote at the quote that closes it, if there is one. -/
def closeQuote : List Char → Option (List Char × List Char)
  | [] => none
  | '"' :: cs => some ([], cs)
  | '\\' :: c :: cs => (closeQuote cs).map fun r ↦ ('\\' :: c :: r.1, r.2)
  | c :: cs => (closeQuote cs).map fun r ↦ (c :: r.1, r.2)

/-- Writes a text between quotes. -/
def quoted (s : String) : String :=
  String.ofList ('"' :: (escape s.toList ++ ['"']))

/-- Writes a text as one word: bare where that reads back, quoted otherwise. -/
def word (s : String) : String :=
  if isPlainWord s then s else quoted s

/-! ### Reading undoes writing -/

theorem unescape_escape (cs : List Char) : unescape (escape cs) = cs := by
  induction cs with
  | nil => rfl
  | cons c cs ih =>
    rw [escape]
    split
    · next h => rw [h, unescape, ih]; rfl
    split
    · next h => rw [h, unescape, ih]; rfl
    split
    · next h => rw [h, unescape, ih]; rfl
    split
    · next h => rw [h, unescape, ih]; rfl
    · next h₁ h₂ h₃ h₄ =>
      rw [unescape, ih]
      exact fun d ds hc _ ↦ h₂ hc

theorem closeQuote_escape (cs rest : List Char) :
    closeQuote (escape cs ++ '"' :: rest) = some (escape cs, rest) := by
  induction cs with
  | nil => rfl
  | cons c cs ih =>
    rw [escape]
    split
    · simp [closeQuote, ih]
    split
    · simp [closeQuote, ih]
    split
    · simp [closeQuote, ih]
    split
    · simp [closeQuote, ih]
    · next h₁ h₂ h₃ h₄ =>
      rw [List.cons_append, closeQuote, ih]
      · rfl
      · exact h₁
      · exact fun d ds hc _ ↦ h₂ hc

/-- What is split off at the closing quote, with that quote, gives the text back. -/
theorem eq_append_of_closeQuote {cs body rest : List Char}
    (h : closeQuote cs = some (body, rest)) : cs = body ++ '"' :: rest := by
  fun_induction closeQuote cs generalizing body rest with
  | case1 => simp at h
  | case2 cs => simp_all
  | case3 c cs ih =>
    obtain ⟨⟨b, r⟩, hr, he⟩ := Option.map_eq_some_iff.1 h
    cases he
    simp [ih hr]
  | case4 c cs _ _ ih =>
    obtain ⟨⟨b, r⟩, hr, he⟩ := Option.map_eq_some_iff.1 h
    cases he
    simp [ih hr]

theorem length_lt_of_closeQuote {cs body rest : List Char}
    (h : closeQuote cs = some (body, rest)) : rest.length < cs.length := by
  rw [eq_append_of_closeQuote h, List.length_append, List.length_cons]
  omega

end TermRegistry.Text
