import FormEdit.Text.Quoted

/-!
# Kinds of form

An atom is a leaf, a quote stands before one form, a list holds any number of forms.
-/

namespace FormEdit

/-- What a node of a form is. -/
inductive Kind where
  | atom (content : String)
  | quote
  | list
  deriving DecidableEq, Repr

/-- How many children a node may have. -/
inductive Arity where
  | leaf
  | exactly (count : Nat)
  | any
  deriving DecidableEq, Repr

def Arity.allows : Arity → Nat → Bool
  | .leaf, children => children == 0
  | .exactly count, children => children == count
  | .any, _ => true

namespace Kind

/-- How an outline shows the kind. -/
def label : Kind → String
  | .atom content => content
  | .quote => "' (quote)"
  | .list => "() (list)"

def arity : Kind → Arity
  | .atom _ => .leaf
  | .quote => .exactly 1
  | .list => .any

def isAtom : Kind → Bool
  | .atom _ => true
  | .quote => false
  | .list => false

/-- How a fault names the kind. -/
def name : Kind → String
  | .atom content => "Atom(" ++ Text.quoted content ++ ")"
  | .quote => "Quote"
  | .list => "List"

end Kind

end FormEdit
