import FormEdit.Buffer.Commit
import FormEdit.Buffer.Exchange
import FormEdit.Buffer.Patch

/-!
# Change logs

A buffer can also be kept as its characters and a log: one marker for each changed character, with
its place in storage. Nothing is stored with the characters themselves, so whatever comes into
storage or leaves it moves the markers behind it, by a signed distance in 32-bit arithmetic, and the
first marker to be moved is found by bisection.

None of this is right unless the markers ascend and stand inside of storage (`Log.WellFormed`).
-/

namespace FormEdit

/-- What a marker says of its character. -/
inductive Change where
  | inserted
  | deleted
  deriving DecidableEq, Repr

/-- A changed character, by its place in storage. -/
structure Marker where
  index : Nat
  change : Change
  deriving DecidableEq, Repr

namespace Marker

def isDeleted (m : Marker) : Bool := m.change == .deleted

/-- The marker at another place. Places wrap around at the limit. -/
def moved (m : Marker) (distance : Int) : Marker :=
  { m with index := ((m.index + distance) % (positionLimit : Int)).toNat }

end Marker

/-- Which end is meant of the deleted characters at a position. -/
inductive Edge where
  | first
  | last
  deriving DecidableEq, Repr

/-- The stored characters, and a marker for each one that is changed. -/
structure Log where
  chars : List Char
  markers : List Marker
  deriving DecidableEq, Repr

namespace Log

def empty : Log := ⟨[], []⟩

def ofText (text : String) : Log := ⟨text.toList, []⟩

/-- The markers ascend and stand inside of storage. -/
structure WellFormed (l : Log) : Prop where
  ascending : l.markers.Pairwise fun m n => m.index < n.index
  inside : ∀ m ∈ l.markers, m.index < l.chars.length

/-! ## Finding places -/

/-- Goes on from a place past the deleted characters up to it. -/
def passing (edge : Edge) : Nat → List Marker → Nat
  | place, [] => place
  | place, m :: markers =>
    if place < m.index then place
    else if m.isDeleted && (edge == .last || decide (m.index < place)) then
      passing edge (place + 1) markers
    else passing edge place markers

/-- The place in storage of a current position. -/
def place (l : Log) (edge : Edge) (position : Nat) : Nat := passing edge position l.markers

/-- Bisection between `low` and `high` for the first marker that is not below an index. -/
def bisect (markers : List Marker) (index low high : Nat) : Nat :=
  if low < high then
    let middle := low + (high - low) / 2
    if markers[middle]?.any fun m => decide (m.index < index) then
      bisect markers index (middle + 1) high
    else bisect markers index low middle
  else low
termination_by high - low

/-- The number of markers below an index. -/
def slot (l : Log) (index : Nat) : Nat := bisect l.markers index 0 l.markers.length

/-- The places of a span, the deleted characters at both of its ends included. -/
def block (l : Log) (span : Span) : Span :=
  let first := min (l.place .first span.start) l.chars.length
  let last := min (l.place .last span.stop) l.chars.length
  ⟨first, max last first, Nat.le_max_right last first⟩

/-! ## Looking at a log -/

/-- Goes through storage from `index` on with the markers from there on, each beside its
character. -/
def walk {α : Type} (f : Char → Option Change → List α) : Nat → List Char → List Marker → List α
  | _, [], _ => []
  | index, c :: chars, [] => f c none ++ walk f (index + 1) chars []
  | index, c :: chars, m :: markers =>
    if m.index = index then f c (some m.change) ++ walk f (index + 1) chars markers
    else f c none ++ walk f (index + 1) chars (m :: markers)

/-- The characters but for those with a change that hides them. -/
def without (hidden : Change) (l : Log) : List Char :=
  walk (fun c change => if change = some hidden then [] else [c]) 0 l.chars l.markers

def current (l : Log) : List Char := l.without .deleted

def original (l : Log) : List Char := l.without .inserted

/-- The number of markers of a kind. -/
def count (change : Change) (l : Log) : Nat := l.markers.countP (·.change == change)

/-- Lengths have 32 bits. -/
def currentLength (l : Log) : Nat := (l.chars.length - l.count .deleted) % positionLimit

def originalLength (l : Log) : Nat := (l.chars.length - l.count .inserted) % positionLimit

def letter : Option Change → Char
  | none => '_'
  | some .inserted => 'A'
  | some .deleted => 'D'

/-- All of storage, every character behind its letter. -/
def marked (l : Log) : List Char :=
  walk (fun c change => [letter change, c]) 0 l.chars l.markers

/-! ## Changing a log -/

/-- Puts an inserted character at a place. -/
def insertAt (l : Log) (c : Char) (index position : Nat) : Checked Log :=
  if index ≤ l.chars.length then
    let slot := l.slot index
    .ok ⟨l.chars.take index ++ c :: l.chars.drop index,
      l.markers.take slot ++ ⟨index % positionLimit, .inserted⟩ ::
        (l.markers.drop slot).map (·.moved 1)⟩
  else .error (.insertOutOfBounds position)

def insert (l : Log) (c : Char) (position : Nat) : Checked Log :=
  l.insertAt c (l.place .first position) position

def insertPastDeleted (l : Log) (c : Char) (position : Nat) : Checked Log :=
  l.insertAt c (l.place .last position) position

/-- Marks the character at a place as deleted, or takes it out together with its marker if it was
inserted. -/
def deleteAt (l : Log) (index : Nat) : Checked Log :=
  let slot := l.slot index
  let markers := l.markers.drop slot
  match markers.head?.filter (·.index == index) with
  | none =>
    .ok ⟨l.chars, l.markers.take slot ++ ⟨index % positionLimit, .deleted⟩ :: markers⟩
  | some m =>
    if m.isDeleted then .error .deletedTwice
    else .ok ⟨l.chars.eraseIdx index,
      l.markers.take slot ++ markers.tail.map (·.moved (-1))⟩

def delete (l : Log) (position : Nat) : Checked Log :=
  let index := l.place .last position
  if index < l.chars.length then l.deleteAt index else .error (.deleteOutOfBounds position)

/-- What stands in a block of storage, with its markers counted from the start of the block. -/
def copy (l : Log) (span : Span) : Log :=
  let block := l.block span
  ⟨(l.chars.drop block.start).take block.length,
    ((l.markers.drop (l.slot block.start)).take (l.slot block.stop - l.slot block.start)).map
      (·.moved (-block.start))⟩

/-- Takes `length` characters out of storage, with their markers. -/
def remove (l : Log) (index length : Nat) : Log :=
  ⟨l.chars.take index ++ l.chars.drop (index + length),
    l.markers.take (l.slot index) ++
      (l.markers.drop (l.slot (index + length))).map (·.moved (-length))⟩

def cut (l : Log) (span : Span) : Log :=
  let block := l.block span
  l.remove block.start block.length

/-- Puts a log in at a place. -/
def put (l : Log) (index : Nat) (slice : Log) : Log :=
  let slot := l.slot index
  ⟨l.chars.take index ++ slice.chars ++ l.chars.drop index,
    l.markers.take slot ++ slice.markers.map (·.moved index) ++
      (l.markers.drop slot).map (·.moved slice.chars.length)⟩

def paste (l : Log) (position : Nat) (slice : Log) : Log :=
  l.put (min (l.place .first position) l.chars.length) slice

def patchIn (l : Log) (position : Nat) (slice : Log) : Log × Patch :=
  let index := min (l.place .last position) l.chars.length
  (l.put index slice, ⟨index, slice.chars.length⟩)

def patchOut (l : Log) (patch : Patch) : Checked Log :=
  if patch.index + patch.length ≤ l.chars.length then .ok (l.remove patch.index patch.length)
  else .error .missingCells

/-- Puts a log in behind all of the current text. -/
def push (l slice : Log) : Log := (l.patchIn l.currentLength slice).1

/-- Commits what stands from `first` up to `last` in storage. The deleted characters leave storage
one by one, the last one first. -/
def commitBetween (l : Log) (first last : Nat) : Log :=
  let committed := (l.markers.drop (l.slot first)).take (l.slot last - l.slot first)
  let deleted := committed.filter Marker.isDeleted
  ⟨deleted.reverse.foldl (fun chars m => chars.eraseIdx m.index) l.chars,
    l.markers.take (l.slot first) ++ (l.markers.drop (l.slot last)).map (·.moved (-deleted.length))⟩

/-- Commits what lies between the first and the last current character of a span. -/
def commit (l : Log) (span : Span) : Log :=
  let first := min (l.place .last span.start) l.chars.length
  if span.isEmpty then l.commitBetween first first
  else l.commitBetween first (min (l.place .last (span.stop - 1) + 1) l.chars.length)

def commitAll (l : Log) : Log :=
  ⟨walk (fun c change => if change.isSome then [] else [c]) 0 l.chars
    (l.markers.filter Marker.isDeleted), []⟩

/-! ## Exchanging two spans -/

/-- Two exchanged spans of a log, with their slices. -/
structure Exchange where
  earlier : Span
  later : Span
  earlierSlice : Log
  laterSlice : Log

def exchange (l : Log) (earlier later : Span) : Checked (Exchange × Log) :=
  if earlier.stop ≤ later.start then
    let laterSlice := l.copy later
    let l := l.cut later
    let earlierSlice := l.copy earlier
    let l := l.cut earlier
    let l := l.paste earlier.start laterSlice
    let l := l.paste (later.start - earlier.length + later.length) earlierSlice
    .ok (⟨earlier, later, earlierSlice, laterSlice⟩, l)
  else .error .overlap

def Exchange.undo (x : Exchange) (l : Log) : Log :=
  let l := l.cut (Span.sized x.earlier.start x.later.length)
  let l := l.cut (Span.sized (x.later.start - x.earlier.length) x.earlier.length)
  let l := l.paste x.earlier.start x.earlierSlice
  l.paste x.later.start x.laterSlice

end Log

/-! ## The log of a buffer -/

/-- What the log has to say of a character. -/
def Cell.change? (c : Cell) : Option Change :=
  match c.status with
  | .kept => none
  | .inserted => some .inserted
  | .deleted => some .deleted

def Status.ofChange : Option Change → Status
  | none => .kept
  | some .inserted => .inserted
  | some .deleted => .deleted

namespace Status

@[simp] theorem ofChange_none : ofChange none = .kept := rfl

@[simp] theorem ofChange_inserted : ofChange (some .inserted) = .inserted := rfl

@[simp] theorem ofChange_deleted : ofChange (some .deleted) = .deleted := rfl

end Status

namespace Buffer

/-- The markers of cells that are stored from `index` on. -/
def markersFrom : Nat → List Cell → List Marker
  | _, [] => []
  | index, c :: cells => (c.change?.map (Marker.mk index)).toList ++ markersFrom (index + 1) cells

/-- The buffer as characters and a log. -/
def log (b : Buffer) : Log := ⟨b.cells.map Cell.char, markersFrom 0 b.cells⟩

end Buffer

/-- An exchange with the logs of its slices. -/
def Exchange.log (x : Exchange) : Log.Exchange :=
  ⟨x.earlier, x.later, x.earlierSlice.log, x.laterSlice.log⟩

/-! ## Reading cells off a log -/

namespace Log

open Buffer

/-- The characters of a log, each with its change. -/
def buffer (l : Log) : Buffer :=
  ⟨walk (fun c change => [⟨c, Status.ofChange change⟩]) 0 l.chars l.markers⟩

/-- The characters of a span, each with its change, read with the markers of the block. -/
def cellsOf (l : Log) (span : Span) : List Cell :=
  let block := l.block span
  walk (fun c change => [⟨c, Status.ofChange change⟩]) block.start
    ((l.chars.drop block.start).take block.length)
    ((l.markers.drop (l.slot block.start)).take (l.slot block.stop - l.slot block.start))

/-- The characters of a span in one of the views. -/
def slice (l : Log) (view : View) (span : Span) : List Placed :=
  match view with
  | .committed => placeCommitted span.start (l.cellsOf span)
  | .current => placeCurrent span.start (l.cellsOf span)

end Log

end FormEdit
