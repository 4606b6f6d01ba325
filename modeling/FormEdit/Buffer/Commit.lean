import FormEdit.Buffer

/-!
# Committing changes

Committed cells forget their history: deleted ones leave storage, inserted ones become ordinary
text. The current text stays the same.
-/

namespace FormEdit.Buffer

/-- The cells without their history. -/
def settle (cells : List Cell) : List Cell :=
  (cells.filter Cell.isCurrent).map fun cell => ⟨cell.char, .kept⟩

/-- Commits what lies between the first and the last current character of a span. Deleted
characters at its ends may belong to its neighbours and stay. -/
def commit (b : Buffer) (span : Span) : Buffer :=
  if span.isEmpty then b
  else
    let first := min (lastIndex span.start b.cells) b.cells.length
    let last := min (lastIndex (span.stop - 1) b.cells + 1) b.cells.length
    ⟨b.cells.take first ++ settle ((b.cells.drop first).take (last - first)) ++ b.cells.drop last⟩

/-- Commits everything. -/
def commitAll (b : Buffer) : Buffer := ⟨settle b.cells⟩

end FormEdit.Buffer
