import FormEdit.Fault

/-!
# Spans of positions

A position counts characters from the start of the text and lies below `positionLimit`. A span is
half-open and never ends before it starts; `Span.make` is the only way to build one from two
positions of unknown order.
-/

namespace FormEdit

/-- Positions are numbered below this limit. -/
def positionLimit : Nat := Nat.pow 2 32

/-- The position `count` characters after `position`. -/
def advance (position count : Nat) : Checked Nat :=
  if position + count < positionLimit then .ok (position + count) else .error .positionOverflow

/-- Moves a position by a signed distance. -/
def shiftPosition (position : Nat) (distance : Int) : Checked Nat :=
  let moved := (position : Int) + distance
  if 0 ≤ moved ∧ moved < (positionLimit : Int) then .ok moved.toNat else .error .movedBelowZero

/-- A half-open range of positions. -/
structure Span where
  start : Nat
  stop : Nat
  start_le_stop : start ≤ stop := by omega
  deriving DecidableEq, Repr

namespace Span

/-- The span between two positions, which have to be in order. -/
def make (start stop : Nat) : Checked Span :=
  if h : start ≤ stop then .ok ⟨start, stop, h⟩ else .error .reversedSpan

/-- The empty span at a position. -/
def empty (position : Nat) : Span := ⟨position, position, Nat.le_refl position⟩

/-- The span of `length` characters from a position on. -/
def sized (start length : Nat) : Span := ⟨start, start + length, Nat.le_add_right start length⟩

def length (s : Span) : Nat := s.stop - s.start

def isEmpty (s : Span) : Bool := s.start == s.stop

/-- The position lies inside; the end does not. -/
def contains (s : Span) (position : Nat) : Bool := s.start ≤ position && position < s.stop

/-- The smallest span over both. -/
def cover (s t : Span) : Span :=
  ⟨min s.start t.start, max s.stop t.stop,
    Nat.le_trans (Nat.min_le_left _ _) (Nat.le_trans s.start_le_stop (Nat.le_max_left _ _))⟩

/-- Moves both ends by the same signed distance. -/
def shift (s : Span) (distance : Int) : Checked Span := do
  let start ← shiftPosition s.start distance
  let stop ← shiftPosition s.stop distance
  make start stop

/-- Moves the end alone by a signed distance. -/
def stretch (s : Span) (distance : Int) : Checked Span := do
  let stop ← shiftPosition s.stop distance
  make s.start stop

end Span

end FormEdit
