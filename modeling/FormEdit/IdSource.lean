/-!
# Sources of node numbers

Every node gets a number of 32 bits when it is made. The numbers are handed out by a source that
either counts upwards or goes round in steps.
-/

namespace FormEdit

inductive IdSource where
  /-- Counts `next`, `next + 1` and so on and hands out what 32 bits hold of the count. -/
  | counting (next : Nat)
  /-- Hands out `next`, `next + step` and so on, starting again below `IdSource.cycle`. -/
  | cycling (next step : Nat)
  deriving DecidableEq, Repr

namespace IdSource

/-- There are this many numbers. -/
def cycle : Nat := Nat.pow 2 32

/-- One, two, three and so on. -/
def fromOne : IdSource := .counting 1

/-- The next number, and the source after it. -/
def draw : IdSource → Nat × IdSource
  | .counting next => (next % cycle, .counting (next + 1))
  | .cycling next step => (next, .cycling ((next + step) % cycle) step)

end IdSource

end FormEdit
