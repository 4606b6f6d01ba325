import FormEdit.Command

/-!
# The program
-/

namespace FormEdit

/-- Reads a file that has to hold text. -/
def readContents (path : String) : IO (Except ReadProblem String) := do
  try
    let bytes ← IO.FS.readBinFile path
    match String.fromUTF8? bytes with
    | some text => pure (.ok text)
    | none => pure (.error .notText)
  catch
    | .noFileOrDirectory _ _ _ => pure (.error .notFound)
    | problem => pure (.error (.unreadable (toString problem)))

/-- Runs a command and prints what it has to say; the result is the exit code. -/
def runCommand (command : Command) : IO UInt32 := do
  let contents ← readContents command.path
  match command.run contents with
  | .error fault =>
    IO.eprintln (fault.message?.getD "an obligation was broken")
    pure 101
  | .ok printout =>
    IO.print printout.output
    if let some snippet := printout.snippet then IO.eprintln snippet
    match printout.report with
    | some report =>
      IO.eprint report.text
      pure 1
    | none => pure 0

end FormEdit

def main (arguments : List String) : IO UInt32 := do
  match FormEdit.Command.read arguments with
  | some command => FormEdit.runCommand command
  | none =>
    IO.eprintln "usage: tree PATH | edit PATH EDIT..."
    pure 2
