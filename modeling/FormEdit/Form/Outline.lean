import FormEdit.Form

/-!
# Outlines

An outline shows a form with one line for each node: its first and last position and its label,
indented under its parent.
-/

namespace FormEdit

/-- One line of an outline, indented by two spaces for every level. The last position of an empty
span is a dash. -/
def Tag.outlineLine (tag : Tag) (depth : Nat) : String :=
  let last := if tag.span.isEmpty then "-" else toString (tag.span.stop - 1)
  String.ofList (List.replicate (2 * depth) ' ') ++ "(" ++ toString tag.span.start ++ "," ++ last
    ++ "): " ++ tag.kind.label ++ "\n"

/-- The lines of a form, each node before those under it. -/
def Form.outline (f : Form) : String :=
  String.join (f.levels.map fun (tag, depth) => tag.outlineLine depth)

end FormEdit
