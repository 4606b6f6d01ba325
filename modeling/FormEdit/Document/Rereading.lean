import FormEdit.Document

/-!
# Reading a changed text again

After a change the innermost node around it is read again on its own. If that fails the next node
outwards is tried, up to the root. A node that is fused with its neighbour, because the characters
on both sides of its edge read as one token, is passed over: on its own it would read differently.
-/

namespace FormEdit

/-- What a change of the text did to the tree. -/
inductive Outcome where
  /-- `node` was read again and has taken the place of an older node. -/
  | reparsed (root node : Handle)
  /-- Not even the root parses; the change waits in the text. -/
  | pending (root : Handle)
  deriving DecidableEq, Repr

namespace Outcome

def root : Outcome → Handle
  | .reparsed root _ => root
  | .pending root => root

def isReparsed : Outcome → Bool
  | .reparsed _ _ => true
  | .pending _ => false

end Outcome

namespace Document

variable {κ : Type}

/-- There are two characters, and side by side they read as one token. -/
def fused (l : Language κ) : Option Char → Option Char → Bool
  | some left, some right => l.fuses left right
  | _, _ => false

/-- The character at a position. -/
def charAt (chars : List Placed) (position : Nat) : Option Char :=
  (chars.find? (·.position == position)).map Placed.char

/-- The first or last character of a node reads as one token with the character outside. The root
has nothing outside, and an empty node no characters. -/
def isFused (l : Language κ) (d : Document) (h : Handle) : Checked Bool := do
  let span ← d.tree.span h
  match ← d.tree.parent h with
  | none => pure false
  | some _ =>
    if span.isEmpty then pure false
    else
      let after ← advance span.stop 1
      let window ← Span.make (span.start - 1) after
      let chars := d.text.slice .current window
      let outside := if span.start = 0 then none else charAt chars (span.start - 1)
      pure (fused l outside (charAt chars span.start) ||
        fused l (charAt chars (span.stop - 1)) (charAt chars span.stop))

/-- The form that the current text under a node reads as on its own, if it does. -/
def rereadNode (l : Language κ) (d : Document) (h : Handle) : Checked (Option Form) := do
  if ← d.isFused l h then pure none
  else
    match d.readNode l h .current with
    | .ok form => pure (some form)
    | .error (.rejected _) => pure none
    | .error (.fault fault) => .error fault

/-- Narrows the root's span to its tokens. -/
def narrowRoot (l : Language κ) (d : Document) : Checked Document := do
  let span ← d.tree.span d.root
  match l.split (d.text.slice .current span) with
  | .error (.fault fault) => .error fault
  | .error (.rejected _) => pure d
  | .ok tokens =>
    match tokens.head?, tokens.getLast? with
    | some first, some last =>
      let narrowed ← Span.make first.span.start last.span.stop
      let tree ← d.tree.setSpan d.root narrowed
      pure { d with tree := tree }
    | _, _ => pure d

/-- Commits the text that the node `h` was just read from; it lay at `span`. A widened root is
narrowed again as soon as nothing is pending. -/
def commitNode (l : Language κ) (d : Document) (h : Handle) (span : Span) : Checked Document := do
  match ← d.tree.parent h with
  | none => pure { d with text := d.text.commitAll, widened := false }
  | some _ =>
    let d := { d with text := d.text.commit span }
    if d.widened && d.isSettled then
      let d ← d.narrowRoot l
      pure { d with widened := false }
    else pure d

/-- Reads `h` again, or the nearest node around it that parses, in at most `steps` steps. -/
def rereadFrom (l : Language κ) : Nat → Document → Handle → Checked (Outcome × Document)
  | 0, _, _ => .error .endless
  | steps + 1, d, h => do
    let span ← d.tree.span h
    match ← d.rereadNode l h with
    | some form =>
      let (new, d) ← d.putForm h form .current
      let d ← d.commitNode l new span
      pure (.reparsed d.root new, d)
    | none =>
      match ← d.tree.parent h with
      | some parent => rereadFrom l steps d parent
      | none => pure (.pending h, d)

/-- Reads a node again, and the nodes around it as far as needed. -/
def reread (l : Language κ) (d : Document) (h : Handle) : Checked (Outcome × Document) :=
  rereadFrom l (Tree.reach d.tree.nodes) d h

end Document

end FormEdit
