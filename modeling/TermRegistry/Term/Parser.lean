import TermRegistry.Error
import TermRegistry.Reading
import TermRegistry.Token.Lexer

/-!
# Reading terms

Terms are read from tokens by the grammar

```text
statements := (WORD* WORD "=" value ";")*
parameters := (param ("," param)*)?
param      := (WORD "=")? value
value      := primary ("o" primary)*
primary    := WORD ("(" parameters ")" ("{" statements "}")?)?
            | "$" "{" WORD "}"
            | "[" WORD "]"                      a capture, for a bare word only
            | "[" (value ("," value)*)? "]"     an array
            | "(" value ")" ("->" "(" value ")")?
```

where the words before `=` in a statement are, from the right, its name, its declaration type and
any number of modifiers. The last semicolon of some statements may be left out, and parameters are
all named or all positional.

Each function takes the tokens that are left and the ending behind them, and its result carries
the proof that fewer tokens are left afterwards; the mutual recursion is measured by their number.
A lexical fault is reported when a function looks for a token where the tokens have run out, so
the first fault of a text, lexical or syntactic, is the one reported.
-/

namespace TermRegistry

namespace Parse

/-- What was read from tokens, and the tokens left behind it: fewer than `bound`. -/
abbrev Read (α : Type) (bound : Nat) := Reading Located α bound

/-! ### Single tokens -/

/-- The error of not finding a token where the tokens have run out. -/
def missing (e : Ending) (fault : Token → SyntaxFault) : Error :=
  match e.fault? with
  | some lexical => .lexical lexical e.position
  | none => .syntactic (fault .endOfInput) e.position

/-- Where the next token stands. -/
def positionOf (e : Ending) (ts : List Located) : Position :=
  (ts.head?.map (·.position)).getD e.position

/-- Looks at the next token. -/
def peek (e : Ending) : List Located → Except Error Token
  | [] =>
    match e.fault? with
    | some lexical => throw (.lexical lexical e.position)
    | none => return .endOfInput
  | t :: _ => return t.token

/-- Takes the next token if it is the given one. -/
def accept (e : Ending) (token : Token) (ts : List Located) :
    Except Error (Option (Read Unit ts.length)) :=
  match ts with
  | [] => do
    let _ ← peek e []
    return none
  | t :: ts => return if t.token = token then some ⟨(), ts, Nat.lt_succ_self _⟩ else none

/-- Takes the next token, which has to be the given one. -/
def expect (e : Ending) (token : Token) (ts : List Located) :
    Except Error (Read Unit ts.length) :=
  match ts with
  | [] => throw (missing e (.unexpected token))
  | t :: ts =>
    if t.token = token then return ⟨(), ts, Nat.lt_succ_self _⟩
    else throw (.syntactic (.unexpected token t.token) t.position)

/-- Takes the next token, which has to be a word, as the name of a reference. -/
def referenceName (e : Ending) (ts : List Located) : Except Error (Read String ts.length) :=
  match ts with
  | [] => throw (missing e .noReferenceName)
  | t :: ts =>
    match t.token.text? with
    | some name => return ⟨name, ts, Nat.lt_succ_self _⟩
    | none => throw (.syntactic (.noReferenceName t.token) t.position)

/-- What is in front of the value of a statement, given the words in reverse. -/
def labelOf? : List String → Option (Label × List String)
  | [] => none
  | [name] => some (.named name, [])
  | name :: type :: modifiers => some (.typed type name, modifiers.reverse)

/-- Takes the words in front of a statement's value and the `=` behind them. The words taken so
far are given in reverse. -/
def heading (e : Ending) (words : List String) (ts : List Located) :
    Except Error (Read (Label × List String) ts.length) :=
  match ts with
  | [] => throw (missing e .noStatementName)
  | t :: ts => do
    if let some word := t.token.text? then
      return (← heading e (word :: words) ts).within (Nat.le_succ _)
    else if let (.equals, some label) := (t.token, labelOf? words) then
      return ⟨label, ts, Nat.lt_succ_self _⟩
    else
      throw (.syntactic (.noStatementName t.token) t.position)

/-- Takes nothing: the tokens have to be used up. -/
def finish (e : Ending) : List Located → Except Error Unit
  | [] => do
    let _ ← peek e []
  | t :: _ => throw (.syntactic (.trailing t.token) t.position)

/-! ### Terms -/

mutual

/-- A value: primaries joined by `o`. -/
def value (e : Ending) (ts : List Located) : Except Error (Read Term ts.length) := do
  let first ← primary e ts
  have := first.shorter
  return (← chain e first.result first.rest).within (by omega)
termination_by (ts.length, 1)

/-- What `o` joins to a first operand, nested to the right. -/
def chain (e : Ending) (first : Term) (ts : List Located) :
    Except Error (Read Term (ts.length + 1)) := do
  let some compose ← accept e .compose ts | return ⟨first, ts, Nat.lt_succ_self _⟩
  have := compose.shorter
  let operand ← primary e compose.rest
  have := operand.shorter
  let others ← chain e operand.result operand.rest
  have := others.shorter
  return ⟨.composite first others.result, others.rest, by omega⟩
termination_by (ts.length, 0)

/-- A value without `o` outside parentheses. -/
def primary (e : Ending) (ts : List Located) : Except Error (Read Term ts.length) :=
  match ts with
  | [] => throw (missing e .noValue)
  | t :: ts =>
    match t.token with
    | .word text => called e text ts
    | .quoted text => called e text ts
    | .dollar => do
      let brace ← expect e .leftBrace ts
      let name ← referenceName e brace.rest
      let close ← expect e .rightBrace name.rest
      have := brace.shorter
      have := name.shorter
      have := close.shorter
      return ⟨.reference name.result, close.rest, by simp only [List.length_cons]; omega⟩
    | .leftBracket => bracketed e ts
    | .leftParen => do
      let inner ← value e ts
      let close ← expect e .rightParen inner.rest
      have := inner.shorter
      have := close.shorter
      let some arrow ← accept e .arrow close.rest
        | return ⟨inner.result, close.rest, by simp only [List.length_cons]; omega⟩
      let paren ← expect e .leftParen arrow.rest
      have := arrow.shorter
      have := paren.shorter
      let target ← value e paren.rest
      let close ← expect e .rightParen target.rest
      have := target.shorter
      have := close.shorter
      return ⟨.rule inner.result target.result, close.rest, by
        simp only [List.length_cons]; omega⟩
    | found => throw (.syntactic (.noValue found) t.position)
termination_by (ts.length, 0)

/-- What follows a word: the parameters and the internal listing of a call, or nothing, and then
the word is a literal text. -/
def called (e : Ending) (word : String) (ts : List Located) :
    Except Error (Read Term (ts.length + 1)) := do
  let some paren ← accept e .leftParen ts | return ⟨.text word, ts, Nat.lt_succ_self _⟩
  have := paren.shorter
  let params ← parameters e paren.rest
  let close ← expect e .rightParen params.rest
  have := params.shorter
  have := close.shorter
  let some brace ← accept e .leftBrace close.rest
    | return ⟨.call word params.result none, close.rest, by omega⟩
  have := brace.shorter
  let internal ← statements e brace.rest
  let close ← expect e .rightBrace internal.rest
  have := internal.shorter
  have := close.shorter
  return ⟨.call word params.result (some internal.result), close.rest, by omega⟩
termination_by (ts.length, 0)

/-- What follows an opening bracket: a capture or an array. -/
def bracketed (e : Ending) (ts : List Located) : Except Error (Read Term (ts.length + 1)) := do
  let some close ← accept e .rightBracket ts | return (← captureOrItems e ts).within (Nat.le_succ _)
  have := close.shorter
  return ⟨.array [], close.rest, by omega⟩
termination_by (ts.length, 3)

/-- What follows an opening bracket that is not closed at once. A bare word alone is a capture. -/
def captureOrItems (e : Ending) (ts : List Located) : Except Error (Read Term ts.length) :=
  match ts with
  | ⟨.word word, _⟩ :: ts => do
    let some close ← accept e .rightBracket ts
      | let call ← called e word ts
        have := call.shorter
        let first ← chain e call.result call.rest
        have := first.shorter
        let others ← moreItems e first.rest
        return ⟨.array (first.result :: others.result), others.rest,
          Nat.lt_of_lt_of_le (Nat.lt_trans others.shorter first.shorter) call.shorter⟩
    return ⟨.capture word, close.rest, Nat.lt_succ_of_lt close.shorter⟩
  | ts => do
    let first ← value e ts
    have := first.shorter
    let others ← moreItems e first.rest
    return ⟨.array (first.result :: others.result), others.rest,
      Nat.lt_trans others.shorter first.shorter⟩
termination_by (ts.length, 2)

/-- The items of an array behind its first one, and the bracket that closes it. -/
def moreItems (e : Ending) (ts : List Located) : Except Error (Read (List Term) ts.length) :=
  match ts with
  | [] => throw (missing e .noItem)
  | t :: ts =>
    match t.token with
    | .comma => do
      let item ← value e ts
      have := item.shorter
      let others ← moreItems e item.rest
      have := others.shorter
      return ⟨item.result :: others.result, others.rest, by
        simp only [List.length_cons]; omega⟩
    | .rightBracket => return ⟨[], ts, Nat.lt_succ_self _⟩
    | found => throw (.syntactic (.noItem found) t.position)
termination_by (ts.length, 0)

/-- The parameters of a call, up to the closing parenthesis. -/
def parameters (e : Ending) (ts : List Located) :
    Except Error (Read (Listing Term) (ts.length + 1)) := do
  match ← peek e ts with
  | .rightParen | .endOfInput => return ⟨{}, ts, Nat.lt_succ_self _⟩
  | _ => return (← moreParameters e {} ts).within (Nat.le_succ _)
termination_by (ts.length, 4)

/-- One or more parameters, behind those already read. -/
def moreParameters (e : Ending) (before : Listing Term) (ts : List Located) :
    Except Error (Read (Listing Term) ts.length) := do
  let entry ← parameter e ts
  have := entry.shorter
  let some list := before.push? entry.result
    | throw (.syntactic .mixedParameters (positionOf e ts))
  let some comma ← accept e .comma entry.rest | return entry.replace list
  have := comma.shorter
  return (← moreParameters e list comma.rest).within (by omega)
termination_by (ts.length, 3)

/-- One parameter, which is named if an `=` follows its first value. -/
def parameter (e : Ending) (ts : List Located) :
    Except Error (Read (Entry Term) ts.length) := do
  let first ← value e ts
  have := first.shorter
  let some equals ← accept e .equals first.rest
    | return first.replace ⟨.positional, [], first.result⟩
  have := equals.shorter
  let some name := first.result.text?
    | throw (.syntactic (.parameterName first.result) (positionOf e ts))
  let named ← value e equals.rest
  return (named.replace ⟨.named name, [], named.result⟩).within (by omega)
termination_by (ts.length, 2)

/-- The statements up to a closing brace or the end of the tokens. -/
def statements (e : Ending) (ts : List Located) :
    Except Error (Read (List (Entry Term)) (ts.length + 1)) := do
  match ← peek e ts with
  | .rightBrace | .endOfInput => return ⟨[], ts, Nat.lt_succ_self _⟩
  | _ =>
    let label ← heading e [] ts
    have := label.shorter
    let body ← value e label.rest
    have := body.shorter
    let entry : Entry Term := ⟨label.result.1, label.result.2, body.result⟩
    match ← accept e .semicolon body.rest with
    | some semicolon =>
      have := semicolon.shorter
      let others ← statements e semicolon.rest
      have := others.shorter
      return ⟨entry :: others.result, others.rest, by omega⟩
    | none =>
      match ← peek e body.rest with
      | .rightBrace | .endOfInput => return ⟨[entry], body.rest, by omega⟩
      | found =>
        throw (.syntactic (.unexpected .semicolon found) (positionOf e body.rest))
termination_by (ts.length, 0)

end

end Parse

/-! ### Whole texts -/

/-- A text that is being read. -/
structure Reader where
  tokens : List Located
  ending : Ending
deriving Inhabited

namespace Reader

/-- A reader at the start of a text. -/
def ofString (text : String) : Reader :=
  let lexed := Lexed.ofString text
  ⟨lexed.tokens, lexed.ending⟩

/-- Reads a value. -/
def value (r : Reader) : Except Error (Term × Reader) := do
  let read ← Parse.value r.ending r.tokens
  return (read.result, { r with tokens := read.rest })

/-- Reads parameters, up to a closing parenthesis or the end. -/
def parameters (r : Reader) : Except Error (Listing Term × Reader) := do
  let read ← Parse.parameters r.ending r.tokens
  return (read.result, { r with tokens := read.rest })

/-- Reads statements, up to a closing brace or the end. -/
def statements (r : Reader) : Except Error (Listing Term × Reader) := do
  let read ← Parse.statements r.ending r.tokens
  return (⟨read.result, .statements⟩, { r with tokens := read.rest })

/-- Checks that the text is used up. -/
def finish (r : Reader) : Except Error Unit :=
  Parse.finish r.ending r.tokens

end Reader

/-- **The term that a text denotes.** -/
def Term.parse (text : String) : Except Error Term := do
  let (t, r) ← (Reader.ofString text).value
  r.finish
  return t

/-- **The statements that a text denotes.** -/
def Listing.parseStatements (text : String) : Except Error (Listing Term) := do
  let (l, r) ← (Reader.ofString text).statements
  r.finish
  return l

/-- **The parameters that a text denotes.** -/
def Listing.parseParameters (text : String) : Except Error (Listing Term) := do
  let (l, r) ← (Reader.ofString text).parameters
  r.finish
  return l

/-- The statements that some bytes denote, which have to be UTF-8. All bytes are there: reading them
is not what can fail here. -/
def Listing.parseBytes (bytes : ByteArray) : Except Error (Listing Term) :=
  match String.fromUTF8? bytes with
  | some text => parseStatements text
  | none => .error (.input .notUtf8)

end TermRegistry
