import FormEdit.Form.Assembly
import FormEdit.Form.Reader

/-!
# Assembling forms from tokens

A reader that keeps no forms itself: every token enters a node of an assembly, leaves one or adds an
atom. A quote is left as soon as its form is complete, and the form with it.
-/

namespace FormEdit.Assembly

/-- The open quotes that wait for the next form, one around the other. -/
def quotes (a : Assembly) : Nat := (a.opened.takeWhile fun node => node.kind == .quote).length

/-- Leaves a number of nodes, all of which end at a position. -/
def leaveEach (position : Nat) : Nat → Assembly → Checked Assembly
  | 0, a => .ok a
  | count + 1, a => do leaveEach position count (← a.leave position)

/-- Leaves the quotes around a form that has just become complete and ends at a position. -/
def leaveQuotes (a : Assembly) (position : Nat) : Checked Assembly := leaveEach position a.quotes a

/-- Takes one token; `rest` are the tokens after it. -/
def take (a : Assembly) (token : Token Mark) (rest : List (Token Mark)) : Except Failure Assembly :=
  match token.kind with
  | .atom =>
    (a.add (.atom token.content) token.span >>= (·.leaveQuotes token.span.stop)).mapError .fault
  | .quote =>
    if Reader.endsHere rest then reject .bareQuote token.span
    else (a.enter .quote token.span.start).mapError .fault
  | .opening => (a.enter .list token.span.start).mapError .fault
  | .closing =>
    match a.opened with
    | ⟨.list, _, _⟩ :: _ =>
      (a.leave token.span.stop >>= (·.leaveQuotes token.span.stop)).mapError .fault
    | _ => reject (.unmatched ')') token.span

/-- What the innermost open node waits for. -/
def expected (a : Assembly) : String :=
  match a.opened with
  | ⟨.list, _, _⟩ :: _ => "`)`"
  | _ => "a form"

/-- Takes tokens until no node is open; `last` is where the text ends. -/
def read (last : Nat) : Assembly → List (Token Mark) → Except Failure (Form × List (Token Mark))
  | a, [] => reject (.cutShort a.expected) (Span.empty last)
  | a, token :: rest => do
    let a ← a.take token rest
    if a.opened.isEmpty then
      let form ← a.complete.mapError .fault
      pure (form, rest)
    else read last a rest

/-- Assembles one form and returns the tokens after it. -/
def readForm (tokens : List (Token Mark)) : Except Failure (Form × List (Token Mark)) :=
  read (Reader.lastStop tokens) .empty tokens

end FormEdit.Assembly
