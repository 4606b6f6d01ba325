import FormEdit.Form
import FormEdit.Route
import FormEdit.Slots

/-!
# Trees of nodes with handles

A tree keeps the nodes of a form in a store, linked by handles in both directions. Handles stay
good while other parts of the tree are replaced. Links can also be broken: a handle may be stale,
and a node may be listed twice or be its own ancestor. Walks along links therefore count their
steps; a walk longer than the store has slots never ends.
-/

namespace FormEdit

/-- A node with its links. -/
structure Node where
  id : Nat
  kind : Kind
  span : Span
  parent : Option Handle
  children : List Handle
  deriving DecidableEq, Repr

def Node.tag (n : Node) : Tag := ⟨n.kind, n.span⟩

structure Tree where
  nodes : Slots Node
  root : Handle
  deriving DecidableEq, Repr

namespace Tree

/-- More steps than any walk along links can take that does not go round. -/
def reach (nodes : Slots Node) : Nat := nodes.slots.size + 1

def node (t : Tree) (h : Handle) : Checked Node := t.nodes.get h

def contains (t : Tree) (h : Handle) : Bool := t.nodes.contains h

/-- The number of nodes, those outside of the root's subtree included. -/
def size (t : Tree) : Nat := t.nodes.size

def span (t : Tree) (h : Handle) : Checked Span := do
  let node ← t.node h
  pure node.span

def parent (t : Tree) (h : Handle) : Checked (Option Handle) := do
  let node ← t.node h
  pure node.parent

def children (t : Tree) (h : Handle) : Checked (List Handle) := do
  let node ← t.node h
  pure node.children

/-- The nodes under a handle in their places, followed for `steps` levels. -/
def expand (nodes : Slots Node) : Nat → Handle → Checked (Rose (Handle × Node))
  | 0, _ => .error .endless
  | steps + 1, h => do
    let node ← nodes.get h
    let parts ← node.children.mapM fun child => expand nodes steps child
    pure (.node (h, node) parts)

/-- The nodes under a handle, itself included, in their places. -/
def subtree (t : Tree) (h : Handle) : Checked (Rose (Handle × Node)) :=
  expand t.nodes (reach t.nodes) h

/-- The handles under a handle, itself included, each before those under it. -/
def handlesUnder (t : Tree) (h : Handle) : Checked (List Handle) := do
  let nodes ← t.subtree h
  pure (nodes.preorder.map Prod.fst)

/-- The form that a node stands for. -/
def form (t : Tree) (h : Handle) : Checked Form := do
  let nodes ← t.subtree h
  pure (nodes.map fun entry => entry.2.tag)

end Tree

end FormEdit
