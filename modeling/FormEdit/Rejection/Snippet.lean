import FormEdit.Rejection.Window
import FormEdit.Text.Row

/-!
# Showing a rejection in its text

The report of a rejection: a headline, the place, the line that the rejected span starts on, and
a mark with a label under it. The lines stand behind a margin for the line number.
-/

namespace FormEdit.Snippet

/-- Stands for what is cut from a line. -/
def dots : List Char := ['.', '.', '.']

/-- Joiners and marks of writing direction, on which screens disagree. -/
def unshown : Text.CharTable := [(0x200d, 0x200d), (0x202a, 0x202e), (0x2066, 0x2069)]

/-- A line as it is shown: a tab is four spaces. -/
def shown (line : List Char) : List Char :=
  line.flatMap fun c =>
    if c = '\t' then List.replicate 4 ' ' else if unshown.covers c then [] else [c]

/-- A row with nothing behind the margin, which is `digits` wide. -/
def gutter (digits : Nat) : Text.Row := List.replicate (digits + 1) ' ' ++ ['|']

/-- The row that names the place. -/
def placeRow (digits : Nat) (path : String) (number place : Nat) : Text.Row :=
  Text.Row.put (List.replicate digits ' ' ++ ['-', '-', '>']) (digits + 4) path.toList ++
    (":" ++ toString number ++ ":" ++ toString place).toList

/-- The row of a line. -/
def lineRow (window : Window) (number : List Char) (line : List Char) : Text.Row :=
  let offset := number.length + 3
  let size := Window.byteSize line
  let start := window.start size
  let part := Text.fitting (window.stop size - start) (line.drop start)
  let row := Text.Row.put (number ++ [' ', '|']) offset part
  let row := if window.cutsLeft then row.put offset dots else row
  if window.cutsRight size then row.put (offset + Text.columns 1 part - dots.length) dots
  else row

/-- The row of the mark and its label; `hidden` columns of the line are not shown. A mark in that
part of the line reaches into the margin, and one column of it is always there. -/
def markRow (digits hidden : Nat) (mark : Underline) (label : List Char) : Text.Row :=
  let offset := digits + 3
  let start := offset + mark.start - hidden
  let stop := offset + mark.stop - hidden
  let row := (gutter digits).put (offset + (mark.stop + 1 - hidden)) label
  row.put start (List.replicate (max 1 (stop - start)) '^')

/-- The rows below the headline. -/
def rows (e : Excerpt) (path label : String) : Checked (List Text.Row) :=
  match e.lines with
  | [] => pure [placeRow 0 path 1 1, gutter 0, gutter 0]
  | line :: _ => do
    let mark := e.mark line
    let window ← Window.choose e mark label.utf8ByteSize
    let number := (toString e.number).toList
    let digits := number.length
    let visible := shown line
    let hidden := Text.columns 1 (visible.take (window.start (Window.byteSize visible)))
    pure
      [placeRow digits path e.number (e.place line), gutter digits, lineRow window number visible,
       markRow digits hidden mark label.toList, gutter digits]

/-- The report of a rejection. -/
def render (r : Rejection) (path text : String) : Checked String := do
  let excerpt := Excerpt.around text.toList (bytesOf text r.span)
  let rows ← rows excerpt path r.cause.label
  pure ("\n".intercalate (("error: " ++ r.cause.title) :: rows.map String.ofList))

end FormEdit.Snippet
