import FormEdit.Rose
import FormEdit.Span

/-!
# Forms

A form is an atom, a quoted form or a list of forms, each with the span of text it was read from.
-/

namespace FormEdit

/-- What a node is and where it stands. -/
structure Tag where
  kind : Kind
  span : Span
  deriving DecidableEq, Repr

/-- A parsed text. -/
abbrev Form := Rose Tag

namespace Form

def kind (f : Form) : Kind := f.value.kind

def span (f : Form) : Span := f.value.span

/-- The kinds of the nodes in their places, without the spans. -/
def shape (f : Form) : Rose Kind := f.map Tag.kind

end Form

end FormEdit
