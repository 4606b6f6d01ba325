import FormEdit.Form

/-!
# Laying a form out as text

A list goes on one line if it ends within the given column there; otherwise each of its children
starts a line of its own, one column to the right of the opening parenthesis. Only where a line
breaks depends on the column.
-/

namespace FormEdit.Form

/-- The form on one line. -/
def flat (f : Form) : List Char :=
  f.fold fun tag parts =>
    match tag.kind with
    | .atom content => content.toList
    | .quote => '\x27' :: parts.headD []
    | .list => '(' :: [' '].intercalate parts ++ [')']

/-- A line break with the following line indented by `indent`. -/
def lineBreak (indent : Nat) : List Char := '\n' :: List.replicate indent ' '

mutual

/-- The form laid out at a column, to end within `width` where that can be. -/
def layoutAt (width indent : Nat) : Form → List Char
  | .node ⟨.atom content, _⟩ _ => content.toList
  | .node ⟨.quote, _⟩ [] => ['\x27']
  | .node ⟨.quote, _⟩ (quoted :: _) => '\x27' :: layoutAt width (indent + 1) quoted
  | .node ⟨.list, _⟩ parts =>
    let line := [' '].intercalate (parts.map flat)
    if indent + line.length + 2 ≤ width ∨ parts = [] then '(' :: line ++ [')']
    else '(' :: (lineBreak (indent + 1)).intercalate (layoutEach width (indent + 1) parts) ++ [')']

/-- Each form laid out at the same column. -/
def layoutEach (width indent : Nat) : List Form → List (List Char)
  | [] => []
  | part :: parts => layoutAt width indent part :: layoutEach width indent parts

end

/-- The form as text with lists broken that do not fit in `width` columns. -/
def pretty (width : Nat) (f : Form) : String := String.ofList (layoutAt width 0 f)

end FormEdit.Form
