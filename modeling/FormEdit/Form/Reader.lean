import FormEdit.Form
import FormEdit.Rejection
import FormEdit.Token

/-!
# Reading forms from tokens

`form := ATOM | QUOTE form | OPEN form* CLOSE`. The reader goes through the tokens once and keeps
the forms it is inside of, innermost first.
-/

namespace FormEdit.Reader

/-- A form that is not complete yet. -/
inductive Pending where
  /-- A list with the children read so far, the last one first. -/
  | list (start : Nat) (children : List Form)
  /-- A quote that waits for its form. -/
  | quote (start : Nat)

/-- Where the reader stands after a token: at the end of the form, or inside of others. -/
inductive Progress where
  | done (form : Form)
  | inside (pending : List Pending)

/-- Hands a complete form to the innermost pending one. A quote is complete with it. -/
def deliver : Form → List Pending → Checked Progress
  | f, [] => .ok (.done f)
  | f, .list start children :: outer => .ok (.inside (.list start (f :: children) :: outer))
  | f, .quote start :: outer => do
    let span ← Span.make start f.span.stop
    deliver (.node ⟨.quote, span⟩ [f]) outer

/-- The next token closes a list or there is none. -/
def endsHere : List (Token Mark) → Bool
  | [] => true
  | next :: _ => next.kind == .closing

/-- What the reader waits for inside of the pending forms. -/
def expected : List Pending → String
  | .list _ _ :: _ => "`)`"
  | _ => "a form"

/-- Takes one token; `rest` are the tokens after it. -/
def take (pending : List Pending) (token : Token Mark) (rest : List (Token Mark)) :
    Except Failure Progress :=
  match token.kind, pending with
  | .atom, _ => (deliver (.leaf ⟨.atom token.content, token.span⟩) pending).mapError .fault
  | .quote, _ =>
    if endsHere rest then reject .bareQuote token.span
    else .ok (.inside (.quote token.span.start :: pending))
  | .opening, _ => .ok (.inside (.list token.span.start [] :: pending))
  | .closing, .list start children :: outer => do
    let span ← (Span.make start token.span.stop).mapError .fault
    (deliver (.node ⟨.list, span⟩ children.reverse) outer).mapError .fault
  | .closing, _ => reject (.unmatched ')') token.span

/-- Reads on inside of the pending forms; `last` is where the text ends. -/
def read (last : Nat) : List Pending → List (Token Mark) → Except Failure (Form × List (Token Mark))
  | pending, [] => reject (.cutShort (expected pending)) (Span.empty last)
  | pending, token :: rest => do
    match ← take pending token rest with
    | .done form => pure (form, rest)
    | .inside pending => read last pending rest

/-- The end of the last token. -/
def lastStop (tokens : List (Token Mark)) : Nat :=
  match tokens.getLast? with
  | some token => token.span.stop
  | none => 0

/-- Reads one form and returns the tokens after it. -/
def readForm (tokens : List (Token Mark)) : Except Failure (Form × List (Token Mark)) :=
  read (lastStop tokens) [] tokens

end FormEdit.Reader
