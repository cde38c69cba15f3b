import TermRegistry.Text.Quoted
import TermRegistry.Token

/-!
# Splitting a text into tokens

Blank characters separate tokens and are otherwise skipped. The marks `, = ; [ ] { } ( ) $` are
tokens of their own, and so is the arrow `->`; a quote opens a quoted word; every other character
belongs to a bare word, which extends as far as it can. The bare word `o` denotes composition.
-/

namespace TermRegistry

namespace Token

/-- The token that a character forms on its own, if it does. -/
def ofMark? : Char → Option Token
  | ',' => some comma
  | '=' => some equals
  | ';' => some semicolon
  | '[' => some leftBracket
  | ']' => some rightBracket
  | '\x7b' => some leftBrace
  | '\x7d' => some rightBrace
  | '(' => some leftParen
  | ')' => some rightParen
  | '$' => some dollar
  | _ => none

/-- The token of a whole bare word. -/
def ofBare (text : String) : Token :=
  if text = Text.composeWord then compose else word text

end Token

namespace Lexed

/-- Puts a token in front. -/
def cons (token : Token) (position : Position) (rest : Lexed) : Lexed :=
  { rest with tokens := ⟨token, position⟩ :: rest.tokens }

/-- A text that stops at a lexical fault. -/
def stopped (fault : LexicalFault) (position : Position) : Lexed :=
  ⟨[], position, some fault⟩

/-- **The tokens of a text** that begins at a given position. -/
def ofChars (p : Position) : List Char → Lexed
  | [] => ⟨[], p, none⟩
  | c :: cs =>
    if Text.isBlank c then
      ofChars (p.next c) cs
    else if let some token := Token.ofMark? c then
      cons token p (ofChars (p.next c) cs)
    else if c = '-' then
      match cs with
      | '>' :: rest => cons .arrow p (ofChars ((p.next c).next '>') rest)
      | _ => stopped .danglingDash p
    else if c = '"' then
      match _h : Text.closeQuote cs with
      | some (body, rest) =>
        cons (.quoted (String.ofList (Text.unescape body))) p
          (ofChars ((p.next c).after (body ++ ['"'])) rest)
      | none => stopped .unclosedQuote p
    else
      let tail := cs.takeWhile Text.isBare
      cons (Token.ofBare (String.ofList (c :: tail))) p
        (ofChars ((p.next c).after tail) (cs.dropWhile Text.isBare))
termination_by cs => cs.length
decreasing_by
  all_goals simp only [List.length_cons]
  · omega
  · omega
  · omega
  · have := Text.length_lt_of_closeQuote ‹_›
    omega
  · have := (List.dropWhile_suffix Text.isBare (l := cs)).length_le
    omega

/-- The tokens of a text. -/
def ofString (text : String) : Lexed :=
  ofChars {} text.toList

end Lexed

end TermRegistry
