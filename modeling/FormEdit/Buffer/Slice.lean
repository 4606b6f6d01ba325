import FormEdit.Buffer.Typing

/-!
# Slices of a buffer

A span of current positions covers a block of storage that includes the deleted characters at
both of its ends. The block can be read in either view, or copied, cut out and put in elsewhere
with the status of every character. Spans are clamped to the text.
-/

namespace FormEdit.Buffer

/-- The places in storage of a span, as a span of storage. -/
def block (b : Buffer) (span : Span) : Span :=
  let first := min (firstIndex span.start b.cells) b.cells.length
  let last := min (lastIndex span.stop b.cells) b.cells.length
  ⟨first, max last first, Nat.le_max_right last first⟩

/-- The cells of a span. -/
def cellsOf (b : Buffer) (span : Span) : List Cell :=
  let block := b.block span
  (b.cells.drop block.start).take block.length

/-- Numbers the current characters among the cells consecutively. -/
def placeCurrent : Nat → List Cell → List Placed
  | _, [] => []
  | position, cell :: cells =>
    if cell.isCurrent then ⟨position, cell.char⟩ :: placeCurrent (position + 1) cells
    else placeCurrent position cells

/-- Places the committed characters among the cells at their current positions. Inserted
characters are left out but counted; a deleted character stands where the next one that stays
does. -/
def placeCommitted : Nat → List Cell → List Placed
  | _, [] => []
  | position, cell :: cells =>
    match cell.status with
    | .kept => ⟨position, cell.char⟩ :: placeCommitted (position + 1) cells
    | .inserted => placeCommitted (position + 1) cells
    | .deleted => ⟨position, cell.char⟩ :: placeCommitted position cells

/-- The characters of a span in one of the views. -/
def slice (b : Buffer) (view : View) (span : Span) : List Placed :=
  match view with
  | .committed => placeCommitted span.start (b.cellsOf span)
  | .current => placeCurrent span.start (b.cellsOf span)

/-- A span as a buffer of its own. -/
def copy (b : Buffer) (span : Span) : Buffer := ⟨b.cellsOf span⟩

/-- The buffer without a span. -/
def cut (b : Buffer) (span : Span) : Buffer :=
  let block := b.block span
  ⟨b.cells.take block.start ++ b.cells.drop block.stop⟩

/-- Puts a buffer in ahead of the deleted characters at a position. -/
def paste (b : Buffer) (position : Nat) (slice : Buffer) : Buffer :=
  b.insertCells (min (firstIndex position b.cells) b.cells.length) slice.cells

/-- A buffer behind another. -/
def append (b c : Buffer) : Buffer := ⟨b.cells ++ c.cells⟩

instance : Append Buffer := ⟨append⟩

end FormEdit.Buffer
