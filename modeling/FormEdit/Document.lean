import FormEdit.Buffer.Commit
import FormEdit.Buffer.Slice
import FormEdit.Form.Layout
import FormEdit.Form.Outline
import FormEdit.Language
import FormEdit.Tree.Planting
import FormEdit.Tree.Shift

/-!
# Documents

A document is a text and the tree that was read from it. While the text does not parse, the tree
keeps its last good shape at shifted positions and the text remembers what it was read from.
-/

namespace FormEdit

structure Document where
  text : Buffer
  tree : Tree
  ids : IdSource
  /-- The root's span was widened to reach a change outside of it. -/
  widened : Bool
  deriving DecidableEq, Repr

/-- Why an edit was not tried. -/
inductive Refusal where
  | outOfBounds (position length : Nat)
  | staleNode
  deriving DecidableEq, Repr

def Refusal.message : Refusal → String
  | .outOfBounds position length =>
    "position " ++ toString position ++ " is out of bounds for a text of length " ++
      toString length
  | .staleNode => "the node was replaced by a reparse and no longer exists"

/-- The answer of an edit and the document after it. -/
abbrev Edited (α : Type) := Except Refusal α × Document

namespace Document

variable {κ : Type}

/-- The document of a text that holds exactly one form. -/
def ofText (l : Language κ) (text : String) (ids : IdSource) : Except Failure Document := do
  let buffer := Buffer.ofText text
  let form ← l.readWhole (buffer.slice .current (Span.sized 0 buffer.currentLength))
  let (tree, ids) := Tree.ofForm form ids
  pure ⟨buffer, tree, ids, false⟩

def root (d : Document) : Handle := d.tree.root

/-- Every change of the text has been committed. -/
def isSettled (d : Document) : Bool := !d.text.isChanged

/-- The text under a node in one of the views. -/
def textOf (d : Document) (h : Handle) (view : View) : Checked String := do
  let span ← d.tree.span h
  pure (Placed.text (d.text.slice view span))

/-- The outline of the tree. -/
def outline (d : Document) : Checked String := do
  let form ← d.tree.form d.root
  pure form.outline

/-- The tree laid out as text. -/
def pretty (d : Document) (width : Nat) : Checked String := do
  let form ← d.tree.form d.root
  pure (form.pretty width)

/-- Reads the text under a node. -/
def readNode (l : Language κ) (d : Document) (h : Handle) (view : View) : Except Failure Form := do
  let span ← (d.tree.span h).mapError .fault
  l.readWhole (d.text.slice view span)

/-- Puts a form in the place of a node. Read in the committed view, it keeps the node's span, since
the text under it has the same current length. -/
def putForm (d : Document) (h : Handle) (form : Form) (view : View) :
    Checked (Handle × Document) := do
  let span ← d.tree.span h
  let (new, tree, ids) := d.tree.plant form d.ids
  let tree ← tree.substitute h new
  match view with
  | .current => pure (new, { d with tree := tree, ids := ids })
  | .committed =>
    let tree ← tree.setSpan new span
    pure (new, { d with tree := tree, ids := ids })

end Document

end FormEdit
