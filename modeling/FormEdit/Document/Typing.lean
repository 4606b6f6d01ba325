import FormEdit.Document.Rereading

/-!
# Typing into a document

A typed or deleted character changes the text, moves the nodes behind it and has the nodes around
it read again.
-/

namespace FormEdit.Document

variable {κ : Type}

/-- The innermost node that contains a position. If there is none the root is widened over the
`width` characters from the position on. -/
def nodeAround (d : Document) (position width : Nat) : Checked (Handle × Document) := do
  let nodes ← d.tree.enclosing position
  match nodes.getLast? with
  | some h => pure (h, d)
  | none =>
    let span ← d.tree.span d.root
    let tree ← d.tree.setSpan d.root (span.cover (Span.sized position width))
    pure (d.root, { d with tree := tree, widened := true })

/-- Moves the nodes after the text of `h` has grown by `distance`: its children from `position`
on, and everything behind it. -/
def makeRoom (d : Document) (h : Handle) (position : Nat) (distance : Int) : Checked Document := do
  let tree ← d.tree.stretch h distance
  let tree ← tree.moveChildrenFrom h position distance
  let tree ← tree.moveSuccessors h distance
  pure { d with tree := tree }

/-- Inserts a character. Deleted characters right before a node belong to what precedes it, so a
character at the start of a node goes past them. -/
def insert (l : Language κ) (d : Document) (c : Char) (position : Nat) :
    Checked (Edited Outcome) :=
  if d.text.currentLength < position then
    pure (.error (.outOfBounds position d.text.currentLength), d)
  else do
    let (h, d) ← d.nodeAround position 0
    let span ← d.tree.span h
    let text ← if span.start = position then d.text.insertPastDeleted c position
      else d.text.insert c position
    let d ← { d with text := text }.makeRoom h position 1
    let (outcome, d) ← d.reread l h
    pure (.ok outcome, d)

/-- Deletes the character at a position. -/
def delete (l : Language κ) (d : Document) (position : Nat) : Checked (Edited Outcome) :=
  if d.text.currentLength ≤ position then
    pure (.error (.outOfBounds position d.text.currentLength), d)
  else do
    let (h, d) ← d.nodeAround position 1
    let text ← d.text.delete position
    let d ← { d with text := text }.makeRoom h (position + 1) (-1)
    let (outcome, d) ← d.reread l h
    pure (.ok outcome, d)

end FormEdit.Document
