import FormEdit.Buffer.Typing

/-!
# Patches

A patch puts a buffer in past the deleted characters at a position and remembers the cells it took
up in storage, so that exactly those can be taken out again.
-/

namespace FormEdit

/-- Where a patch went, in storage. -/
structure Patch where
  index : Nat
  length : Nat
  deriving DecidableEq, Repr

namespace Buffer

/-- Puts a buffer in past the deleted characters at a position. -/
def patchIn (b : Buffer) (position : Nat) (slice : Buffer) : Buffer × Patch :=
  let index := min (lastIndex position b.cells) b.cells.length
  (b.insertCells index slice.cells, ⟨index, slice.cells.length⟩)

/-- Takes the cells of a patch out again. -/
def patchOut (b : Buffer) (patch : Patch) : Checked Buffer :=
  if patch.index + patch.length ≤ b.cells.length then
    .ok ⟨b.cells.take patch.index ++ b.cells.drop (patch.index + patch.length)⟩
  else .error .missingCells

end Buffer

end FormEdit
