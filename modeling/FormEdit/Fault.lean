import FormEdit.Handle
import FormEdit.Kind

/-!
# Faults

A fault is a broken obligation of the caller: a position outside the text, a handle to a node
that is gone, forms opened and never closed. An operation that meets one has no result, and none
of its effects are kept. Faults are apart from rejections of a text and from refused edits, which
are ordinary answers.
-/

namespace FormEdit

inductive Fault where
  /-- An insertion past the end of the text. -/
  | insertOutOfBounds (position : Nat)
  /-- A deletion at or past the end of the text. -/
  | deleteOutOfBounds (position : Nat)
  /-- A deletion of a character that is deleted already. -/
  | deletedTwice
  /-- A node shifted out of the range of positions, at either end. -/
  | movedBelowZero
  /-- A handle whose value has been removed. -/
  | stale (handle : Handle)
  /-- A form closed that was never opened. -/
  | unmatchedFinish
  /-- A form opened and never closed. -/
  | unfinished
  /-- No form at all. -/
  | noForm
  /-- A second form beside a complete one. -/
  | secondRoot
  /-- A form closed with a number of children its kind does not take. -/
  | arity (kind : Kind) (children : Nat)
  /-- A span that would end before it starts. -/
  | reversedSpan
  /-- A position beyond the last one that can be named. -/
  | positionOverflow
  /-- Cells asked for that the buffer does not hold. -/
  | missingCells
  /-- Two spans to be exchanged that share characters or stand in the wrong order. -/
  | overlap
  /-- A node that its parent does not list among its children. -/
  | unlisted
  /-- Parent or child links that never end. -/
  | endless
  /-- A mark in the indentation of a long line, too far to the left to be shown with the line. -/
  | outOfView
  deriving DecidableEq, Repr

/-- The text of a fault, for those that have one. -/
def Fault.message? : Fault → Option String
  | .insertOutOfBounds position =>
    some ("insert position " ++ toString position ++ " is out of bounds")
  | .deleteOutOfBounds position =>
    some ("delete position " ++ toString position ++ " is out of bounds")
  | .deletedTwice => none
  | .movedBelowZero => some "node position moved below zero"
  | .stale handle => some ("stale arena key " ++ handle.text)
  | .unmatchedFinish => some "`finish_node` without a matching `start_node`"
  | .unfinished => some "unfinished nodes left in the builder"
  | .noForm => some "the builder produced no node"
  | .secondRoot => some "a subtree has a single root"
  | .arity kind children =>
    some (kind.name ++ " cannot have " ++ toString children ++ " children")
  | .reversedSpan => none
  | .positionOverflow => none
  | .missingCells => none
  | .overlap => none
  | .unlisted => none
  | .endless => none
  | .outOfView => none

/-- A result, or the fault that prevented it. -/
abbrev Checked := Except Fault

end FormEdit
