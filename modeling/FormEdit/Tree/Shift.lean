import FormEdit.Tree.Navigation

/-!
# Moving nodes with the text

When the text under a node grows or shrinks, the spans of the nodes behind the change move and
those of the nodes around it stretch.
-/

namespace FormEdit.Tree

def setSpan (t : Tree) (h : Handle) (span : Span) : Checked Tree := do
  let nodes ← t.nodes.modify h fun node => { node with span := span }
  pure { t with nodes := nodes }

/-- More steps than a walk along links takes that moves a node at each of them: a node can be
moved only so often before it leaves the range of positions. A distance of zero counts as one. -/
def movingReach (nodes : Slots Node) (distance : Int) : Nat :=
  reach nodes * (positionLimit / max 1 distance.natAbs + 1)

/-- Moves the nodes that wait and those under them, one at each step, the last child of a node
before the others. -/
def moveAll (distance : Int) : Nat → Slots Node → List Handle → Checked (Slots Node)
  | _, nodes, [] => pure nodes
  | 0, _, _ :: _ => .error .endless
  | steps + 1, nodes, h :: waiting => do
    let node ← nodes.get h
    let span ← node.span.shift distance
    moveAll distance steps (nodes.set h { node with span := span })
      (node.children.reverse ++ waiting)

/-- Moves a node and everything under it. -/
def move (t : Tree) (h : Handle) (distance : Int) : Checked Tree := do
  let nodes ← moveAll distance (movingReach t.nodes distance) t.nodes [h]
  pure { t with nodes := nodes }

/-- Moves the end of a node. -/
def stretch (t : Tree) (h : Handle) (distance : Int) : Checked Tree := do
  let node ← t.node h
  let span ← node.span.stretch distance
  t.setSpan h span

/-- Moves the children of a node that start at a position or after it. -/
def moveChildrenFrom (t : Tree) (h : Handle) (position : Nat) (distance : Int) : Checked Tree := do
  let children ← t.children h
  children.foldlM
    (fun t child => do
      let span ← t.span child
      if position ≤ span.start then t.move child distance else pure t)
    t

/-- Moves what stands behind a node and stretches what stands around it, level by level. -/
def moveAround (distance : Int) : Nat → Tree → Handle → Checked Tree
  | 0, _, _ => .error .endless
  | steps + 1, t, h => do
    match ← t.seat h with
    | none => pure t
    | some (parent, index) =>
      let siblings ← t.children parent
      let t ← (siblings.drop (index + 1)).foldlM (fun t later => t.move later distance) t
      let t ← t.stretch parent distance
      moveAround distance steps t parent

/-- Makes room for a node that has grown at its end: later siblings move, and the ends of all
ancestors with them. -/
def moveSuccessors (t : Tree) (h : Handle) (distance : Int) : Checked Tree :=
  moveAround distance (movingReach t.nodes distance) t h

end FormEdit.Tree
