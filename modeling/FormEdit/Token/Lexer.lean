import FormEdit.Token
import FormEdit.Rejection
import FormEdit.Text.Blank

/-!
# Splitting a text into tokens

Each parenthesis and each quote is a token. A semicolon between tokens starts a comment, which
goes on to the end of the line. Blanks and comments are dropped; every other run of characters is
an atom, which may hold semicolons after its first character.

The scan goes from left to right in runs. A character either belongs to the run under way or
closes it and opens the next one.
-/

namespace FormEdit.Lexer

/-- A character that an atom can hold. -/
def inAtom (c : Char) : Bool :=
  !(c == '(' || c == ')' || c == '\x27') && !Text.isBlank c && !Text.isControl c

/-- What the characters just read belong to. -/
inductive Run where
  /-- Nothing: the last character was a token of its own, or there was none. -/
  | idle
  | blank
  | comment
  /-- An atom, with the positions of its first and last character and its characters so far, the
  last one first. -/
  | atom (first last : Nat) (content : List Char)
  deriving DecidableEq, Repr

/-- The end of a token whose last character is at `last`. A character at the same position as
the next one takes up no room. -/
def stopAfter (last : Nat) : List Placed → Checked Nat
  | [] => advance last 1
  | next :: _ => if next.position = last then .ok last else advance last 1

namespace Run

/-- The run goes on with this character. -/
def takes : Run → Char → Bool
  | .idle, _ => false
  | .blank, c => Text.isBlank c
  | .comment, c => c != '\n'
  | .atom _ _ _, c => inAtom c

def take : Run → Placed → Run
  | .atom first _ content, p => .atom first p.position (p.char :: content)
  | run, _ => run

/-- The tokens of a run that ends before `rest`. -/
def close : Run → List Placed → Checked (List (Token Mark))
  | .atom first last content, rest => do
    let stop ← stopAfter last rest
    let span ← Span.make first stop
    pure [⟨.atom, String.ofList content.reverse, span⟩]
  | _, _ => pure []

end Run

/-- A token made of the one character `p`. -/
def single (mark : Mark) (p : Placed) (rest : List Placed) : Checked (List (Token Mark)) := do
  let stop ← stopAfter p.position rest
  let span ← Span.make p.position stop
  pure [⟨mark, p.char.toString, span⟩]

/-- What a character that belongs to no earlier run begins: the new run, and the tokens that are
complete with it. -/
def begin (p : Placed) (rest : List Placed) : Except Failure (Run × List (Token Mark)) := do
  let after ← (advance p.position 1).mapError .fault
  if p.char == '(' then
    pure (.idle, ← (single .opening p rest).mapError .fault)
  else if p.char == ')' then
    pure (.idle, ← (single .closing p rest).mapError .fault)
  else if p.char == '\x27' then
    pure (.idle, ← (single .quote p rest).mapError .fault)
  else if p.char == ';' then
    pure (.comment, [])
  else if Text.isBlank p.char then
    pure (.blank, [])
  else if Text.isControl p.char then
    reject (.badToken "control character") (← (Span.make p.position after).mapError .fault)
  else
    pure (.atom p.position p.position [p.char], [])

/-- The tokens of the characters ahead, given the run under way. -/
def scan : Run → List Placed → Except Failure (List (Token Mark))
  | run, [] => (run.close []).mapError .fault
  | run, p :: rest =>
    if run.takes p.char then scan (run.take p) rest
    else do
      let done ← (run.close (p :: rest)).mapError .fault
      let (next, complete) ← begin p rest
      let more ← scan next rest
      pure (done ++ complete ++ more)

/-- Splits placed characters into tokens. -/
def split (chars : List Placed) : Except Failure (List (Token Mark)) := scan .idle chars

end FormEdit.Lexer
