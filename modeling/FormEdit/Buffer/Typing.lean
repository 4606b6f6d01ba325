import FormEdit.Buffer

/-!
# Typing into a buffer

Single characters are inserted and deleted. A deleted character stays in storage, unless it was
itself inserted since the last commit: then nothing is left of it.
-/

namespace FormEdit.Buffer

/-- Puts new cells at a place in storage. -/
def insertCells (b : Buffer) (index : Nat) (cells : List Cell) : Buffer :=
  ⟨b.cells.take index ++ cells ++ b.cells.drop index⟩

/-- Puts an inserted character at a place in storage that stands for `position`. -/
def insertAt (b : Buffer) (c : Char) (index position : Nat) : Checked Buffer :=
  if index ≤ b.cells.length then .ok (b.insertCells index [⟨c, .inserted⟩])
  else .error (.insertOutOfBounds position)

/-- Inserts a character ahead of the deleted characters at its position. -/
def insert (b : Buffer) (c : Char) (position : Nat) : Checked Buffer :=
  b.insertAt c (firstIndex position b.cells) position

/-- Inserts a character past the deleted characters at its position. -/
def insertPastDeleted (b : Buffer) (c : Char) (position : Nat) : Checked Buffer :=
  b.insertAt c (lastIndex position b.cells) position

/-- Deletes the character at a position. -/
def delete (b : Buffer) (position : Nat) : Checked Buffer :=
  let index := lastIndex position b.cells
  match b.cells.drop index with
  | [] => .error (.deleteOutOfBounds position)
  | cell :: rest =>
    match cell.status with
    | .inserted => .ok ⟨b.cells.take index ++ rest⟩
    | .kept => .ok ⟨b.cells.take index ++ ⟨cell.char, .deleted⟩ :: rest⟩
    | .deleted => .error .deletedTwice

end FormEdit.Buffer
