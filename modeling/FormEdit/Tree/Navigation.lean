import FormEdit.Tree

/-!
# Finding nodes

From a node to its neighbours and its route, and from a route or a position to nodes.
-/

namespace FormEdit.Tree

/-- The parent of a node and the node's number among its children; the root has none. -/
def seat (t : Tree) (h : Handle) : Checked (Option (Handle × Nat)) := do
  match ← t.parent h with
  | none => pure none
  | some parent =>
    let siblings ← t.children parent
    match siblings.idxOf? h with
    | some index => pure (some (parent, index))
    | none => .error .unlisted

def siblingBefore (t : Tree) (h : Handle) : Checked (Option Handle) := do
  match ← t.seat h with
  | some (parent, index + 1) =>
    let siblings ← t.children parent
    pure siblings[index]?
  | _ => pure none

def siblingAfter (t : Tree) (h : Handle) : Checked (Option Handle) := do
  match ← t.seat h with
  | some (parent, index) =>
    let siblings ← t.children parent
    pure siblings[index + 1]?
  | none => pure none

/-- The route to a node, found in at most `steps` steps upwards. -/
def climb (t : Tree) : Nat → Handle → Checked Route
  | 0, _ => .error .endless
  | steps + 1, h => do
    match ← t.seat h with
    | none => pure []
    | some (parent, index) =>
      let above ← t.climb steps parent
      pure (above ++ [index])

/-- The child numbers that lead from the root to a node. -/
def route (t : Tree) (h : Handle) : Checked Route := t.climb (reach t.nodes) h

/-- The node that a route leads to from `h`. -/
def descend (t : Tree) : Handle → Route → Checked (Option Handle)
  | h, [] => pure (some h)
  | h, index :: route => do
    let children ← t.children h
    match children[index]? with
    | some child => t.descend child route
    | none => pure none

/-- The node at the end of a route, if the route does not leave the tree. -/
def atRoute (t : Tree) (route : Route) : Checked (Option Handle) := t.descend t.root route

/-- The first of the nodes that contains a position. Nodes are in order, so the search ends at
one that starts past it. -/
def childAt (t : Tree) (position : Nat) : List Handle → Checked (Option Handle)
  | [] => pure none
  | child :: later => do
    let span ← t.span child
    if span.start ≤ position then
      if span.contains position then pure (some child) else t.childAt position later
    else pure none

/-- The nodes under `h` that contain a position, from `h` inwards. -/
def inward (t : Tree) (position : Nat) : Nat → Handle → Checked (List Handle)
  | 0, _ => .error .endless
  | steps + 1, h => do
    let children ← t.children h
    match ← t.childAt position children with
    | some child =>
      let inner ← t.inward position steps child
      pure (h :: inner)
    | none => pure [h]

/-- The nodes that contain a position, from the root inwards. -/
def enclosing (t : Tree) (position : Nat) : Checked (List Handle) := do
  let span ← t.span t.root
  if span.contains position then t.inward position (reach t.nodes) t.root else pure []

end FormEdit.Tree
