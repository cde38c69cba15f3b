import TermRegistry.Text.Hidden

/-!
# Texts as they are shown

Where a message shows a text, it stands between double quotes, and whatever could be mistaken in
it is escaped: the quote, the backslash, and every hidden character.
-/

namespace TermRegistry.Text

/-- The code point of a character in hexadecimal. -/
def codePoint (c : Char) : String := String.ofList (Nat.toDigits 16 c.toNat)

/-- A character of a shown text. -/
def showChar (c : Char) : String :=
  if c.toNat = 0 then "\\0"
  else if c = '\t' then "\\t"
  else if c = '\r' then "\\r"
  else if c = '\n' then "\\n"
  else if c = '\\' then "\\\\"
  else if c = '"' then "\\\""
  else if isHidden c then "\\u\x7b" ++ codePoint c ++ "\x7d"
  else c.toString

/-- **Shows a text.** -/
def shown (s : String) : String :=
  "\"" ++ String.join (s.toList.map showChar) ++ "\""

end TermRegistry.Text
