import FormEdit.Rejection.Excerpt

/-!
# The part of long lines that is shown

Lines are shown through a window. It leaves out a deep indentation, and of lines that are too
long for the screen it shows the part around the mark: with the label if both fit, otherwise the
mark alone. A few columns on either side are kept free for the dots that stand for what is cut.
-/

namespace FormEdit

/-- The part of a line that is shown. Lines that end within `width` of its left edge are shown to
their end, and so are those that end before `aim`, what the window was made to show. -/
structure Window where
  left : Nat
  right : Nat
  width : Nat
  aim : Nat
  deriving DecidableEq, Repr

namespace Window

/-- The columns of a screen. -/
def screen : Nat := 140

/-- The columns kept free on each side of a mark. -/
def clearance : Nat := 6

/-- An indentation beyond this is cut. -/
def deepIndent : Nat := 20

/-- What is left of an indentation that is cut. -/
def keptIndent : Nat := 16

/-- The size of a text in bytes. -/
def byteSize (text : List Char) : Nat := (text.map Char.utf8Size).foldr (· + ·) 0

/-- The columns before the first character that is not blank, if there is one. A tab counts
four. -/
def indent? (line : List Char) : Option Nat :=
  if line.all Text.isBlank then none
  else some (((line.takeWhile Text.isBlank).map fun c => if c = '\t' then 4 else 1).foldr (· + ·) 0)

/-- The least indentation of the lines that are not blank. -/
def leastIndent? (lines : List (List Char)) : Option Nat := (lines.filterMap indent?).min?

/-- The edges of the window for lines of at most `longest` bytes. The indentation, the mark from
`first` to `last` and the end of its label come with the clearance around them. -/
def edges (width longest indent first last labelLast : Nat) : Checked (Nat × Nat) :=
  let left := if deepIndent < indent then indent - keptIndent else 0
  if longest - left ≤ width then .ok (left, max longest left)
  else if labelLast < indent then .error .outOfView
  else if labelLast - indent ≤ width then .ok (indent, indent + width)
  else if labelLast - first ≤ width then
    let left := first - (width - (labelLast - first)) / 2
    .ok (left, left + width)
  else if last - first ≤ width then
    let left := first - (width - (last - first)) / 5 * 2
    .ok (left, left + width)
  else .ok (first, last)

/-- The window for lines of at most `longest` bytes that are indented by `indent`, with a mark
and a label that ends at the column `labelStop`. A window that closes with the mark or with the
label aims at them and not at the clearance. -/
def around (width longest indent labelStop : Nat) (mark : Underline) : Checked Window := do
  let last := mark.stop + clearance
  let labelLast := labelStop + clearance
  let (left, right) ←
    edges width longest (indent - clearance) (mark.start - clearance) last labelLast
  pure ⟨left, right, width, if right = last ∨ right = labelLast then right - clearance else right⟩

/-- The window for an excerpt whose mark has a label of `label` bytes. Blank lines are cut
whole. -/
def choose (e : Excerpt) (mark : Underline) (label : Nat) : Checked Window :=
  let digits := (toString (e.number + e.lines.length)).length
  let width := screen - (digits + 3)
  let longest := (e.lines.map byteSize).foldl max 0
  match leastIndent? e.lines with
  | none => .ok ⟨longest + 1, longest + 1, width, longest + 1⟩
  | some indent => around width longest indent (mark.stop + label + 1) mark

/-- Something is cut at the left. -/
def cutsLeft (w : Window) : Bool := 0 < w.left

/-- Something is cut at the right of a line of `size` bytes. -/
def cutsRight (w : Window) (size : Nat) : Bool := w.aim < size && w.left + w.width < size

/-- Where to start in a line of `size` bytes. -/
def start (w : Window) (size : Nat) : Nat := min w.left size

/-- Where to stop in a line of `size` bytes. -/
def stop (w : Window) (size : Nat) : Nat :=
  if size - w.left ≤ w.width then size else min size w.right

end Window

end FormEdit
