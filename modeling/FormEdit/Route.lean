import FormEdit.Text.Numeral
import FormEdit.Text.Pieces

/-!
# Routes

A route leads from the root of a tree down to a node by child numbers. It is written with dots
between the numbers, and the route of the root is the empty text.
-/

namespace FormEdit

/-- Child numbers from the root down. -/
abbrev Route := List Nat

namespace Route

/-- The numbers of a written route lie below this limit. -/
def limit : Nat := Nat.pow 2 64

def text (route : Route) : String := ".".intercalate (route.map toString)

/-- Reads a written route. The leftmost piece that is no number decides. -/
def read (text : String) : Except Text.Numeral.Problem Route :=
  if text = "" then .ok []
  else (Text.pieces '.' text.toList).mapM (Text.Numeral.read limit)

end Route

end FormEdit
