import FormEdit.Edit.Reader
import FormEdit.Rejection.Snippet

/-!
# The command line

`tree PATH` prints the outline of a file. `edit PATH EDIT...` applies edits to its text one after
the other and prints the document after each. All edits are read before the file is.
-/

namespace FormEdit

inductive Command where
  | tree (path : String)
  | edit (path : String) (edits : List Edit)
  deriving DecidableEq, Repr

/-- Why a file has no text. -/
inductive ReadProblem where
  | notFound
  | notText
  | unreadable (description : String)
  deriving DecidableEq, Repr

def ReadProblem.message : ReadProblem → String
  | .notFound => "No such file or directory (os error 2)"
  | .notText => "stream did not contain valid UTF-8"
  | .unreadable description => description

/-- A failed command: what to say, and what lies behind it. -/
structure Report where
  message : String
  cause : Option String
  deriving DecidableEq, Repr

def Report.text (r : Report) : String :=
  match r.cause with
  | none => "Error: " ++ r.message ++ "\n"
  | some cause => "Error: " ++ r.message ++ "\n\nCaused by:\n    " ++ cause ++ "\n"

/-- What a command prints, and the report of its failure if it fails. A file that does not parse
is also shown with the place that was rejected. -/
structure Printout where
  output : String
  snippet : Option String
  report : Option Report
  deriving DecidableEq, Repr

namespace Command

/-- Whether an argument asks for an option rather than being one of the values in order. -/
def isOption (argument : String) : Bool :=
  match argument.toList with
  | '-' :: _ :: _ => true
  | _ => false

/-- The values in order among the arguments. After `--` every argument is a value; there are no
options. -/
def values : List String → Option (List String)
  | [] => some []
  | argument :: rest =>
    if argument = "--" then some rest
    else if isOption argument then none
    else (values rest).map (argument :: ·)

/-- Reads the command line. -/
def read (arguments : List String) : Option Command :=
  match arguments with
  | "tree" :: rest =>
    match values rest with
    | some [path] => some (.tree path)
    | _ => none
  | "edit" :: rest =>
    match values rest with
    | some (path :: edits) =>
      match edits.mapM Edit.read with
      | .ok edits => some (.edit path edits)
      | .error _ => none
    | _ => none
  | _ => none

/-- The file that a command works on. -/
def path : Command → String
  | .tree path => path
  | .edit path _ => path

/-- The document after an edit. -/
def showDocument (d : Document) : Checked String := do
  let current ← d.textOf d.root .current
  let committed ← d.textOf d.root .committed
  let outline ← d.outline
  let lines := (Text.pieces '\n' outline.toList).dropLast
  pure ("  current:  " ++ Text.quoted current ++ "\n" ++
    "  original: " ++ Text.quoted committed ++ "\n" ++
    "  markers:  " ++ String.ofList d.text.marked ++ "\n" ++
    String.join (lines.map fun line => "  " ++ String.ofList line ++ "\n"))

/-- Applies edits one after the other until one is refused; `output` is what was printed. -/
def replay (d : Document) (output : String) : List Edit → Checked Printout
  | [] => pure ⟨output, none, none⟩
  | step :: edits => do
    let (answer, d) ← step.run Language.parenthesised d
    match answer with
    | .error setback => pure ⟨output, none, some ⟨setback.message, none⟩⟩
    | .ok verdict =>
      let shown ← showDocument d
      replay d (output ++ step.text ++ ": " ++ verdict.word ++ "\n" ++ shown) edits

/-- Runs a command on the contents of its file. -/
def run (command : Command) (contents : Except ReadProblem String) : Checked Printout :=
  match contents with
  | .error problem =>
    pure ⟨"", none, some ⟨"failed to read `" ++ command.path ++ "`", some problem.message⟩⟩
  | .ok text =>
    match Document.ofText Language.parenthesised text IdSource.fromOne with
    | .error (.fault fault) => .error fault
    | .error (.rejected rejection) => do
      let snippet ← Snippet.render rejection command.path text
      pure ⟨"", some snippet, some ⟨"`" ++ command.path ++ "` does not parse", none⟩⟩
    | .ok d =>
      match command with
      | .tree _ => do
        let outline ← d.outline
        pure ⟨outline, none, none⟩
      | .edit _ edits => replay d "" edits

end Command

end FormEdit
