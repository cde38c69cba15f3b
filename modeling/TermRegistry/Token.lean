import TermRegistry.Position

/-!
# Tokens

The words, quoted words and marks a text is made of. The end of the text counts as a token too:
it is what a reader finds once the others are used up, and `Lexed.next` hands it out again each
time it is asked for.

A text that holds a lexical fault still has the tokens before it. They come first, and the fault
stands where the next token would be, so that a reader meets it only when it gets there.
-/

namespace TermRegistry

/-- What a text is made of, blanks aside. -/
inductive Token
  /-- A bare word other than `o`. -/
  | word (text : String)
  /-- A word between quotes, with its escapes resolved. -/
  | quoted (text : String)
  | comma
  | equals
  | semicolon
  /-- The bare word `o`. -/
  | compose
  | leftBracket
  | rightBracket
  | leftBrace
  | rightBrace
  | leftParen
  | rightParen
  | dollar
  | arrow
  | endOfInput
deriving DecidableEq, Repr, Inhabited

namespace Token

/-- The text of a word, bare or quoted. -/
def text? : Token → Option String
  | word text | quoted text => some text
  | _ => none

/-- A token as it is quoted in a message. -/
def render : Token → String
  | word text => text
  | quoted text => "\"" ++ text ++ "\""
  | comma => ","
  | equals => "="
  | semicolon => ";"
  | compose => "o"
  | leftBracket => "["
  | rightBracket => "]"
  | leftBrace => "\x7b"
  | rightBrace => "\x7d"
  | leftParen => "("
  | rightParen => ")"
  | dollar => "$"
  | arrow => "->"
  | endOfInput => "end of input"

end Token

/-- A token and the position of its first character. -/
structure Located where
  token : Token
  position : Position
deriving DecidableEq, Repr, Inhabited

/-- Why a text cannot be split into tokens. -/
inductive LexicalFault
  /-- A quote that no later quote closes. -/
  | unclosedQuote
  /-- A `-` that no `>` follows. -/
  | danglingDash
deriving DecidableEq, Repr, Inhabited

namespace LexicalFault

/-- The wording of a lexical fault. -/
def message : LexicalFault → String
  | unclosedQuote => "end of input inside quoted string"
  | danglingDash => "dangling '-' (expected '->')"

end LexicalFault

/-- Where the tokens of a text stop: at its end, or at the first lexical fault. -/
structure Ending where
  position : Position
  fault? : Option LexicalFault
deriving DecidableEq, Repr, Inhabited

/-- The tokens of a text up to its end or its first lexical fault. -/
structure Lexed where
  tokens : List Located
  ending : Ending
deriving DecidableEq, Repr, Inhabited

end TermRegistry
