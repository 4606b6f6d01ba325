/-!
# Rows of a screen

A row holds one character to a column. Texts are written at columns, in any order, and a later
one covers what stands below it.
-/

namespace FormEdit.Text

/-- The characters of a row by column. -/
abbrev Row := List Char

namespace Row

/-- Writes a text from a column on; a gap before it is filled with spaces. An empty text leaves
no gap. -/
def put (row : Row) (column : Nat) (text : List Char) : Row :=
  if text = [] then row
  else
    row.take column ++ List.replicate (column - row.length) ' ' ++ text ++
      row.drop (column + text.length)

end Row

end FormEdit.Text
