import FormEdit.Text.Pieces

/-!
# The lines of a text

A line ends with a line feed, with or without a carriage return before it. What stands behind
the last line feed is a line too, unless nothing does.
-/

namespace FormEdit.Text

/-- A line without the carriage return that belongs to its end. -/
def dropReturn (line : List Char) : List Char :=
  if line.getLast? = some '\r' then line.dropLast else line

/-- The lines of a text, without their ends. -/
def lines (text : List Char) : List (List Char) :=
  let parts := pieces '\n' text
  let ended := parts.dropLast.map dropReturn
  match parts.getLastD [] with
  | [] => ended
  | rest => ended ++ [rest]

end FormEdit.Text
