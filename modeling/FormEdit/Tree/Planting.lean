import FormEdit.IdSource
import FormEdit.Tree.Navigation

/-!
# Planting forms in a tree

A form becomes part of a tree in two steps: its nodes are planted in the store, then their root
takes the place of an older node, whose subtree is freed. New nodes are planted before old ones
are freed, so the two never share slots.
-/

namespace FormEdit.Tree

mutual

/-- Plants the nodes of a form, each before those under it, and returns the handle of its root. -/
def plantUnder (parent : Option Handle) :
    Form → Slots Node × IdSource → Handle × Slots Node × IdSource
  | .node tag parts, (nodes, ids) =>
    let (id, ids) := ids.draw
    let bare : Node := ⟨id, tag.kind, tag.span, parent, []⟩
    let (h, nodes) := nodes.insert bare
    let (children, nodes, ids) := plantEach h parts (nodes, ids)
    (h, nodes.set h { bare with children := children }, ids)

/-- Plants the children of a node one after the other. -/
def plantEach (parent : Handle) :
    List Form → Slots Node × IdSource → List Handle × Slots Node × IdSource
  | [], (nodes, ids) => ([], nodes, ids)
  | part :: parts, (nodes, ids) =>
    let (h, nodes, ids) := plantUnder (some parent) part (nodes, ids)
    let (children, nodes, ids) := plantEach parent parts (nodes, ids)
    (h :: children, nodes, ids)

end

/-- Plants a form without attaching it anywhere. -/
def plant (t : Tree) (form : Form) (ids : IdSource) : Handle × Tree × IdSource :=
  let (h, nodes, ids) := plantUnder none form (t.nodes, ids)
  (h, { t with nodes := nodes }, ids)

/-- The tree of a form. -/
def ofForm (form : Form) (ids : IdSource) : Tree × IdSource :=
  let (root, nodes, ids) := plantUnder none form (Slots.empty, ids)
  (⟨nodes, root⟩, ids)

/-- Frees a node and those under it, the last child first, for at most `steps` levels. Handles
that are stale already are passed over. -/
def freeUnder : Nat → Slots Node → Handle → Slots Node
  | 0, nodes, _ => nodes
  | steps + 1, nodes, h =>
    match nodes.remove? h with
    | some (node, nodes) =>
      node.children.reverse.foldl (fun nodes child => freeUnder steps nodes child) nodes
    | none => nodes

/-- Links a node into the seat of another: among the children of its parent, or as the root. -/
def reseat (t : Tree) (old new : Handle) : Checked Tree := do
  match ← t.seat old with
  | some (parent, index) =>
    let nodes ← t.nodes.modify parent fun node =>
      { node with children := node.children.set index new }
    let nodes ← nodes.modify new fun node => { node with parent := some parent }
    pure { t with nodes := nodes }
  | none =>
    let nodes ← t.nodes.modify new fun node => { node with parent := none }
    pure ⟨nodes, new⟩

/-- Puts a planted node in the place of another and frees the other's subtree. -/
def substitute (t : Tree) (old new : Handle) : Checked Tree := do
  let t ← t.reseat old new
  pure { t with nodes := freeUnder (reach t.nodes) t.nodes old }

end FormEdit.Tree
