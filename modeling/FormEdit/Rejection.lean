import FormEdit.Span

/-!
# Rejected texts

A text that is not a form is rejected for one cause, at one span. A rejection is an answer; a
`Failure` is either such an answer or a fault met on the way to one.
-/

namespace FormEdit

/-- Why a text is not a form. -/
inductive Cause where
  | cutShort (expected : String)
  | unmatched (delimiter : Char)
  | bareQuote
  | badToken (reason : String)
  | leftover
  deriving DecidableEq, Repr

namespace Cause

def message : Cause → String
  | .cutShort expected => "unexpected end of input, expected " ++ expected
  | .unmatched delimiter => "unmatched `" ++ delimiter.toString ++ "`"
  | .bareQuote => "quote is not followed by a form"
  | .badToken reason => "malformed token: " ++ reason
  | .leftover => "unexpected tokens after the form"

/-- The headline of a report. -/
def title : Cause → String
  | .cutShort _ => "unexpected end of input"
  | .unmatched _ => "unmatched delimiter"
  | .bareQuote => "dangling quote"
  | .badToken _ => "malformed token"
  | .leftover => "trailing tokens"

/-- The note under the marked characters of a report. -/
def label : Cause → String
  | .cutShort expected => expected
  | .unmatched _ => "no matching opener"
  | .bareQuote => "nothing to quote"
  | .badToken reason => reason
  | .leftover => "here"

end Cause

/-- A cause and the characters it was found at. -/
structure Rejection where
  cause : Cause
  span : Span
  deriving DecidableEq, Repr

def Rejection.message (r : Rejection) : String := r.cause.message

/-- Reading a text ends in a rejection or in a fault. -/
inductive Failure where
  | rejected (rejection : Rejection)
  | fault (fault : Fault)
  deriving DecidableEq, Repr

/-- Rejects for a cause at a span. -/
def reject {α : Type} (cause : Cause) (span : Span) : Except Failure α :=
  .error (.rejected ⟨cause, span⟩)

end FormEdit
