import FormEdit.Text.Unprintable
import FormEdit.Text.Extender
import FormEdit.Text.Ignorable

/-!
# Quoted characters and texts

A character or a text written between quotes for a reader: the quote in use, the backslash and
the common controls are escaped by a letter, characters that cannot be shown by their number.
-/

namespace FormEdit.Text

/-- The number of a character in lower-case hexadecimal, without leading zeros. -/
def hexNumber (c : Char) : String := String.ofList (Nat.toDigits 16 c.toNat)

/-- One character inside quotes of the kind `quote`. -/
def escape (quote c : Char) : String :=
  if c = '\x00' then "\\0"
  else if c = '\t' then "\\t"
  else if c = '\n' then "\\n"
  else if c = '\r' then "\\r"
  else if c = '\\' then "\\\\"
  else if c = quote then "\\" ++ quote.toString
  else if isExtender c || isIgnorable c || isUnprintable c then "\\u\x7b" ++ hexNumber c ++ "\x7d"
  else c.toString

/-- A character between single quotes. -/
def quotedChar (c : Char) : String := "'" ++ escape '\x27' c ++ "'"

/-- A text between double quotes. -/
def quoted (text : String) : String :=
  "\"" ++ String.join (text.toList.map (escape '"')) ++ "\""

end FormEdit.Text
