import TermRegistry.Error
import TermRegistry.Token.Lexer

/-!
# Taking tokens one after another

A text is read either token by token or as a whole. Token by token, a reader that is past the last
token is told so as often as it asks, unless the tokens stop at a lexical fault. As a whole, the
text has its tokens or the fault.
-/

namespace TermRegistry

namespace Lexed

/-- Takes the next token. -/
def next (lexed : Lexed) : Except Error (Located × Lexed) :=
  match lexed.tokens with
  | t :: ts => return (t, { lexed with tokens := ts })
  | [] =>
    match lexed.ending.fault? with
    | some fault => throw (.lexical fault lexed.ending.position)
    | none => return (⟨.endOfInput, lexed.ending.position⟩, lexed)

/-- The token that is taken after a number of others. -/
def nth (lexed : Lexed) : Nat → Except Error Located
  | 0 => return (← lexed.next).1
  | n + 1 => do (← lexed.next).2.nth n

end Lexed

/-- **The tokens of a whole text.** -/
def tokenize (text : String) : Except Error (List Token) :=
  let lexed := Lexed.ofString text
  match lexed.ending.fault? with
  | some fault => throw (.lexical fault lexed.ending.position)
  | none => return lexed.tokens.map (·.token)

end TermRegistry
