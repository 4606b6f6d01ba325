import FormEdit.Token

/-!
# Buffers that remember

A buffer holds every character of a text together with what has become of it since it was last
committed. It shows two texts at once: the current one, in which deleted characters are hidden,
and the committed one, in which inserted characters are.

Positions count the characters of the current text. `firstIndex` and `lastIndex` turn them into
places in storage; the two differ where deleted characters lie at the position.
-/

namespace FormEdit

/-- What has become of a character since the last commit. -/
inductive Status where
  | kept
  | inserted
  | deleted
  deriving DecidableEq, Repr

/-- A stored character. -/
structure Cell where
  char : Char
  status : Status
  deriving DecidableEq, Repr

namespace Cell

/-- The character is part of the current text. -/
def isCurrent (c : Cell) : Bool := c.status != .deleted

/-- The character is part of the committed text. -/
def isCommitted (c : Cell) : Bool := c.status != .inserted

/-- The letter that marks the character where all of storage is shown. -/
def letter (c : Cell) : Char :=
  match c.status with
  | .kept => '_'
  | .inserted => 'A'
  | .deleted => 'D'

end Cell

/-- One of the two texts of a buffer. -/
inductive View where
  | committed
  | current
  deriving DecidableEq, Repr

/-- The stored characters in order. -/
structure Buffer where
  cells : List Cell
  deriving DecidableEq, Repr

namespace Buffer

def empty : Buffer := ⟨[]⟩

/-- A text without changes. -/
def ofText (text : String) : Buffer := ⟨text.toList.map (⟨·, .kept⟩)⟩

/-- The text with all changes made. -/
def current (b : Buffer) : List Char := (b.cells.filter Cell.isCurrent).map Cell.char

/-- The text without the changes since the last commit. -/
def committed (b : Buffer) : List Char := (b.cells.filter Cell.isCommitted).map Cell.char

def currentLength (b : Buffer) : Nat := b.cells.countP Cell.isCurrent

def committedLength (b : Buffer) : Nat := b.cells.countP Cell.isCommitted

theorem length_current (b : Buffer) : b.current.length = b.currentLength := by
  simp [current, currentLength, List.countP_eq_length_filter]

theorem length_committed (b : Buffer) : b.committed.length = b.committedLength := by
  simp [committed, committedLength, List.countP_eq_length_filter]

/-- Some character is inserted or deleted. -/
def isChanged (b : Buffer) : Bool := b.cells.any (·.status != .kept)

/-- The places of the changed characters in storage, ascending. -/
def changes (b : Buffer) : List (Nat × Status) :=
  b.cells.zipIdx.filterMap fun (cell, index) =>
    if cell.status = .kept then none else some (index, cell.status)

/-- All of storage, every character behind the letter of its status. -/
def marked (b : Buffer) : List Char := b.cells.flatMap fun c => [c.letter, c.char]

/-- The first place in `cells` with `position` current characters before it. A position past the
end goes as far past the end of storage. -/
def firstIndex : Nat → List Cell → Nat
  | 0, _ => 0
  | position + 1, [] => position + 1
  | position + 1, cell :: cells =>
    firstIndex (if cell.isCurrent then position else position + 1) cells + 1

/-- The last place in `cells` with `position` current characters before it. A position past the
end goes as far past the end of storage. -/
def lastIndex : Nat → List Cell → Nat
  | position, [] => position
  | 0, cell :: cells => if cell.isCurrent then 0 else lastIndex 0 cells + 1
  | position + 1, cell :: cells =>
    lastIndex (if cell.isCurrent then position else position + 1) cells + 1

end Buffer

end FormEdit
