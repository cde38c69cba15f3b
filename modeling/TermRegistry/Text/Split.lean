/-!
# Splitting texts

A text is split at every occurrence of a separating character: `n` of them make `n + 1` parts, of
which some may be empty.
-/

namespace TermRegistry.Text

/-- The parts of some characters between separators. -/
def splitChars (separator : Char) : List Char → List (List Char)
  | [] => [[]]
  | c :: cs =>
    if c = separator then [] :: splitChars separator cs
    else
      match splitChars separator cs with
      | part :: parts => (c :: part) :: parts
      | [] => [[c]]

/-- **The parts of a text** between separators. -/
def split (separator : Char) (s : String) : List String :=
  (splitChars separator s.toList).map String.ofList

end TermRegistry.Text
