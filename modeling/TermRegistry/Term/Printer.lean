import TermRegistry.Term
import TermRegistry.Text.Quoted

/-!
# The canonical text of a term

Literal texts are always written between quotes; names, declaration types and modifiers are
quoted only where they would not read back as one word; captures are written as they are. The
right operands of a composition are flattened into one chain, so that `f o (g o h)` is written
`(f o g o h)`.
-/

namespace TermRegistry

namespace Label

/-- What stands before the value of an entry: its modifiers, its declaration type and its name. -/
def render (label : Label) (modifiers : List String) : String :=
  String.join (modifiers.map fun m ↦ Text.word m ++ " ") ++
    match label with
    | positional => ""
    | named name => Text.word name ++ "="
    | typed type name => Text.word type ++ " " ++ Text.word name ++ "="

end Label

namespace Term

/-- Closes the parenthesis of a chain of compositions behind its last operand. -/
def closeChain (chain : Bool) (text : String) : String :=
  if chain then text ++ ")" else text

/-- Entries separated by commas. -/
def joinParameters (entries : List String) : String :=
  ", ".intercalate entries

/-- Entries each ended by a semicolon. -/
def joinStatements (separator : String) (entries : List String) : String :=
  separator.intercalate (entries.map (· ++ ";"))

mutual

/-- The text of a term. Inside a `chain` the term is the last operand so far of a composition
whose parenthesis is open, and the text goes on to the closing one. -/
def renderIn (chain : Bool) : Term → String
  | text s => closeChain chain (Text.quoted s)
  | reference name => closeChain chain ("$\x7b" ++ Text.word name ++ "\x7d")
  | capture name => closeChain chain ("[" ++ name ++ "]")
  | array items => closeChain chain ("[" ++ ", ".intercalate (renderAll items) ++ "]")
  | listing ⟨entries, .parameters⟩ => closeChain chain (joinParameters (renderEntries entries))
  | listing ⟨entries, .statements⟩ =>
    closeChain chain
      (joinStatements "\n" (renderEntries entries) ++ if entries.isEmpty then "" else "\n")
  | call name ⟨entries, _⟩ internal =>
    if isComposite name entries internal then
      (if chain then "" else "(") ++ renderOperands entries
    else
      closeChain chain (Text.word name ++ "(" ++ joinParameters (renderEntries entries) ++ ")" ++
        renderInternal internal)
  | rule source target =>
    closeChain chain ("(" ++ renderIn false source ++ ") -> (" ++ renderIn false target ++ ")")

/-- The texts of some terms. -/
def renderAll : List Term → List String
  | [] => []
  | t :: ts => renderIn false t :: renderAll ts

/-- The texts of some entries. -/
def renderEntries : List (Entry Term) → List String
  | [] => []
  | ⟨label, modifiers, t⟩ :: es => (label.render modifiers ++ renderIn false t) :: renderEntries es

/-- The two operands of a composition, up to the closing parenthesis. -/
def renderOperands : List (Entry Term) → String
  | [⟨_, _, f⟩, ⟨_, _, g⟩] => renderIn false f ++ " o " ++ renderIn true g
  | _ => ""

/-- The internal listing of a call, with the space before it. -/
def renderInternal : Option (List (Entry Term)) → String
  | none => ""
  | some [] => " \x7b \x7d"
  | some (e :: es) => " \x7b " ++ joinStatements " " (renderEntries (e :: es)) ++ " \x7d"

end

/-- **The canonical text of a term.** -/
def render (t : Term) : String := t.renderIn false

end Term

/-- The canonical text of an entry. -/
def Entry.render (e : Entry Term) : String := e.label.render e.modifiers ++ e.value.render

/-- The canonical text of a listing. -/
def Listing.render (l : Listing Term) : String := (Term.listing l).render

end TermRegistry
