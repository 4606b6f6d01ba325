import FormEdit.Buffer.Exchange
import FormEdit.Buffer.Patch
import FormEdit.Document

/-!
# Moving and copying nodes

A node is moved or copied by moving or copying its text, after which its parent is read again in
the committed view. If the parent no longer parses, the change of the text is undone.
-/

namespace FormEdit.Document

variable {κ : Type}

/-- Exchanges two neighbouring children of a node. The answer is the root, or none if the parent
does not parse that way. -/
def exchange (l : Language κ) (d : Document) (earlier later : Handle) :
    Checked (Option Handle × Document) := do
  match ← d.tree.parent earlier with
  | none => .error .unlisted
  | some parent =>
    let earlierSpan ← d.tree.span earlier
    let laterSpan ← d.tree.span later
    let (done, text) ← d.text.exchange earlierSpan laterSpan
    let d := { d with text := text }
    match d.readNode l parent .committed with
    | .ok form =>
      let (_, d) ← d.putForm parent form .committed
      pure (some d.root, d)
    | .error (.rejected _) => pure (none, { d with text := done.undo d.text })
    | .error (.fault fault) => .error fault

/-- Exchanges a pair of neighbours, if there is one. -/
def exchangePair (l : Language κ) (d : Document) :
    Option (Handle × Handle) → Checked (Edited (Option Handle))
  | none => pure (.ok none, d)
  | some (earlier, later) => do
    let (root, d) ← d.exchange l earlier later
    pure (.ok root, d)

/-- Exchanges a node with the sibling before it. -/
def moveEarlier (l : Language κ) (d : Document) (h : Handle) : Checked (Edited (Option Handle)) :=
  if d.tree.contains h then do
    let before ← d.tree.siblingBefore h
    d.exchangePair l (before.map fun earlier => (earlier, h))
  else pure (.error .staleNode, d)

/-- Exchanges a node with the sibling after it. -/
def moveLater (l : Language κ) (d : Document) (h : Handle) : Checked (Edited (Option Handle)) :=
  if d.tree.contains h then do
    let after ← d.tree.siblingAfter h
    d.exchangePair l (after.map fun later => (h, later))
  else pure (.error .staleNode, d)

/-- Takes a copy of `h` out again and moves everything back. -/
def undoCopy (d : Document) (h : Handle) (patch : Patch) (length : Nat) :
    Checked (Option Handle × Document) := do
  let text ← d.text.patchOut patch
  let tree ← d.tree.moveSuccessors h (-(length : Int))
  pure (none, { d with text := text, tree := tree })

/-- Copies a child of `parent` behind itself, the spacer in between. The copy goes past the
deleted characters at the end of the node, so that it cannot end up inside a delimiter that the
node has lost. The answer is the root, or none if the parent does not read as having one more
child. -/
def copyChild (l : Language κ) (d : Document) (parent h : Handle) :
    Checked (Option Handle × Document) := do
  let span ← d.tree.span h
  let copy := Buffer.ofText l.spacer ++ d.text.copy span
  let length := copy.currentLength
  let (text, patch) := d.text.patchIn span.stop copy
  let tree ← d.tree.moveSuccessors h (length : Int)
  let d := { d with text := text, tree := tree }
  let siblings ← d.tree.children parent
  match d.readNode l parent .committed with
  | .error (.fault fault) => .error fault
  | .error (.rejected _) => d.undoCopy h patch length
  | .ok form =>
    if form.children.length = siblings.length + 1 then
      let (_, d) ← d.putForm parent form .committed
      pure (some d.root, d)
    else d.undoCopy h patch length

/-- Copies a node behind itself. The root cannot be copied. -/
def duplicate (l : Language κ) (d : Document) (h : Handle) : Checked (Edited (Option Handle)) :=
  if d.tree.contains h then do
    match ← d.tree.parent h with
    | none => pure (.ok none, d)
    | some parent =>
      let (root, d) ← d.copyChild l parent h
      pure (.ok root, d)
  else pure (.error .staleNode, d)

end FormEdit.Document
