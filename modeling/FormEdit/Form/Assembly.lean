import FormEdit.Form

/-!
# Assembling forms

A form is put together from the outside in: nodes are entered, filled and left again, like
parentheses. Leaving a node checks that its kind takes the children it was given.
-/

namespace FormEdit

/-- A node that has been entered. Its children are kept with the last one first. -/
structure OpenNode where
  kind : Kind
  start : Nat
  children : List Form

/-- The open nodes, innermost first, and the finished form if there is one. -/
structure Assembly where
  opened : List OpenNode
  root : Option Form

namespace Assembly

def empty : Assembly := ⟨[], none⟩

/-- Whether another node can be started. -/
def hasRoom (a : Assembly) : Bool := !a.opened.isEmpty || a.root.isNone

/-- Adds a complete form to the innermost open node, or makes it the root. -/
def put (a : Assembly) (f : Form) : Assembly :=
  match a.opened with
  | [] => { a with root := some f }
  | parent :: outer =>
    { a with opened := { parent with children := f :: parent.children } :: outer }

/-- Enters a new node that starts at a position. -/
def enter (a : Assembly) (kind : Kind) (position : Nat) : Checked Assembly :=
  if a.hasRoom then .ok { a with opened := ⟨kind, position, []⟩ :: a.opened }
  else .error .secondRoot

/-- Leaves the innermost node, which ends at a position. -/
def leave (a : Assembly) (position : Nat) : Checked Assembly :=
  match a.opened with
  | [] => .error .unmatchedFinish
  | node :: outer =>
    if node.kind.arity.allows node.children.length then do
      let span ← Span.make node.start position
      pure ({ a with opened := outer }.put (.node ⟨node.kind, span⟩ node.children.reverse))
    else .error (.arity node.kind node.children.length)

/-- Adds a node without children, whatever its kind. -/
def add (a : Assembly) (kind : Kind) (span : Span) : Checked Assembly :=
  if a.hasRoom then .ok (a.put (.leaf ⟨kind, span⟩)) else .error .secondRoot

/-- The assembled form. -/
def complete (a : Assembly) : Checked Form :=
  if a.opened.isEmpty then
    match a.root with
    | some f => .ok f
    | none => .error .noForm
  else .error .unfinished

end Assembly

end FormEdit
