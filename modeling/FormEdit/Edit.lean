import FormEdit.Document.Restructuring
import FormEdit.Document.Typing
import FormEdit.Text.Quoted

/-!
# Written edits

An edit is written as a word and its arguments with colons between them: `insert:POS:CHAR`,
`delete:POS`, `up:ROUTE`, `down:ROUTE` and `dup:ROUTE`. A colon may itself be the character to
insert.
-/

namespace FormEdit

/-- One step of a script. -/
inductive Edit where
  | insert (position : Nat) (char : Char)
  | delete (position : Nat)
  | up (route : Route)
  | down (route : Route)
  | duplicate (route : Route)
  deriving DecidableEq, Repr

namespace Edit

/-- The edit as a sentence. -/
def text : Edit → String
  | .insert position c => "insert " ++ Text.quotedChar c ++ " at " ++ toString position
  | .delete position => "delete at " ++ toString position
  | .up route => "move `" ++ route.text ++ "` up"
  | .down route => "move `" ++ route.text ++ "` down"
  | .duplicate route => "duplicate `" ++ route.text ++ "`"

/-- What became of an edit. -/
inductive Verdict where
  | reparsed
  | pending
  | applied
  | rejected
  deriving DecidableEq, Repr

def Verdict.word : Verdict → String
  | .reparsed => "reparsed"
  | .pending => "pending"
  | .applied => "applied"
  | .rejected => "rejected"

/-- Why an edit could not be carried out. -/
inductive Setback where
  | refused (refusal : Refusal)
  | noNode (route : Route)
  deriving DecidableEq, Repr

def Setback.message : Setback → String
  | .refused refusal => refusal.message
  | .noNode route => "no node at path `" ++ route.text ++ "`"

/-- What a typed character came to. -/
def typed (result : Checked (Edited Outcome)) : Checked (Except Setback Verdict × Document) := do
  let (answer, d) ← result
  match answer with
  | .ok outcome => pure (.ok (if outcome.isReparsed then .reparsed else .pending), d)
  | .error refusal => pure (.error (.refused refusal), d)

/-- What a change of the node at the end of a route came to. -/
def restructured (d : Document) (route : Route)
    (change : Document → Handle → Checked (Edited (Option Handle))) :
    Checked (Except Setback Verdict × Document) := do
  match ← d.tree.atRoute route with
  | none => pure (.error (.noNode route), d)
  | some h =>
    let (answer, d) ← change d h
    match answer with
    | .ok root => pure (.ok (if root.isSome then .applied else .rejected), d)
    | .error refusal => pure (.error (.refused refusal), d)

/-- Carries out an edit. -/
def run {κ : Type} (l : Language κ) (d : Document) :
    Edit → Checked (Except Setback Verdict × Document)
  | .insert position c => typed (d.insert l c position)
  | .delete position => typed (d.delete l position)
  | .up route => restructured d route (Document.moveEarlier l)
  | .down route => restructured d route (Document.moveLater l)
  | .duplicate route => restructured d route (Document.duplicate l)

end Edit

end FormEdit
