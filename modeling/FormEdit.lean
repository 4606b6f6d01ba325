import FormEdit.Buffer
import FormEdit.Buffer.Commit
import FormEdit.Buffer.Exchange
import FormEdit.Buffer.Log
import FormEdit.Buffer.Patch
import FormEdit.Buffer.Slice
import FormEdit.Buffer.Typing
import FormEdit.Command
import FormEdit.Document
import FormEdit.Document.Rereading
import FormEdit.Document.Restructuring
import FormEdit.Document.Typing
import FormEdit.Edit
import FormEdit.Edit.Reader
import FormEdit.Fault
import FormEdit.Form
import FormEdit.Form.Assembling
import FormEdit.Form.Assembly
import FormEdit.Form.Layout
import FormEdit.Form.Outline
import FormEdit.Form.Reader
import FormEdit.Handle
import FormEdit.IdSource
import FormEdit.Kind
import FormEdit.Language
import FormEdit.Main
import FormEdit.Proofs.Buffer.BothTexts
import FormEdit.Proofs.Buffer.Committed
import FormEdit.Proofs.Buffer.Committing
import FormEdit.Proofs.Buffer.Current
import FormEdit.Proofs.Buffer.Exchanging
import FormEdit.Proofs.Buffer.Gaps
import FormEdit.Proofs.Buffer.Kept
import FormEdit.Proofs.Buffer.Keystrokes
import FormEdit.Proofs.Buffer.Log
import FormEdit.Proofs.Buffer.Logging
import FormEdit.Proofs.Buffer.Losses
import FormEdit.Proofs.Buffer.Moving
import FormEdit.Proofs.Buffer.Operations
import FormEdit.Proofs.Buffer.Pasting
import FormEdit.Proofs.Buffer.Places
import FormEdit.Proofs.Buffer.Restoring
import FormEdit.Proofs.Buffer.Slicing
import FormEdit.Proofs.Buffer.Undoing
import FormEdit.Proofs.Checked
import FormEdit.Proofs.Document.Commented
import FormEdit.Proofs.Document.Confining
import FormEdit.Proofs.Document.CurrentText
import FormEdit.Proofs.Document.Duplicating
import FormEdit.Proofs.Document.Exchanging
import FormEdit.Proofs.Document.Fresh
import FormEdit.Proofs.Document.Handles
import FormEdit.Proofs.Document.History
import FormEdit.Proofs.Document.Incremental
import FormEdit.Proofs.Document.Parsed
import FormEdit.Proofs.Document.Pending
import FormEdit.Proofs.Document.Reaching
import FormEdit.Proofs.Document.Rearranging
import FormEdit.Proofs.Document.Recalling
import FormEdit.Proofs.Document.Rereading
import FormEdit.Proofs.Document.Resting
import FormEdit.Proofs.Document.Retyping
import FormEdit.Proofs.Document.Session
import FormEdit.Proofs.Document.Settled
import FormEdit.Proofs.Document.Striking
import FormEdit.Proofs.Document.Tracking
import FormEdit.Proofs.Document.Typing
import FormEdit.Proofs.Document.Undoing
import FormEdit.Proofs.Edit.Written
import FormEdit.Proofs.Grammar.Accepted
import FormEdit.Proofs.Grammar.Alone
import FormEdit.Proofs.Grammar.Assembling
import FormEdit.Proofs.Grammar.Comments
import FormEdit.Proofs.Grammar.Confined
import FormEdit.Proofs.Grammar.Covering
import FormEdit.Proofs.Grammar.Derives
import FormEdit.Proofs.Grammar.Dropping
import FormEdit.Proofs.Grammar.Holes
import FormEdit.Proofs.Grammar.Joining
import FormEdit.Proofs.Grammar.Lexes
import FormEdit.Proofs.Grammar.Pieces
import FormEdit.Proofs.Grammar.Placing
import FormEdit.Proofs.Grammar.Printing
import FormEdit.Proofs.Grammar.Quiet
import FormEdit.Proofs.Grammar.Rejected
import FormEdit.Proofs.Grammar.Scanning
import FormEdit.Proofs.Grammar.Seams
import FormEdit.Proofs.Grammar.Splitting
import FormEdit.Proofs.Rejection.Bytes
import FormEdit.Proofs.Rose.Frames
import FormEdit.Proofs.Slots
import FormEdit.Proofs.Slots.History
import FormEdit.Proofs.Text.Numerals
import FormEdit.Proofs.Tree.Addresses
import FormEdit.Proofs.Tree.Agreement
import FormEdit.Proofs.Tree.Balance
import FormEdit.Proofs.Tree.Changes
import FormEdit.Proofs.Tree.Containing
import FormEdit.Proofs.Tree.Enclosing
import FormEdit.Proofs.Tree.Links
import FormEdit.Proofs.Tree.Planting
import FormEdit.Proofs.Tree.Pushing
import FormEdit.Proofs.Tree.Replacing
import FormEdit.Proofs.Tree.Room
import FormEdit.Proofs.Tree.Routes
import FormEdit.Proofs.Tree.Seats
import FormEdit.Proofs.Tree.Siblings
import FormEdit.Proofs.Tree.Sparing
import FormEdit.Proofs.Tree.Substituting
import FormEdit.Proofs.Weave.Backing
import FormEdit.Proofs.Weave.Basic
import FormEdit.Proofs.Weave.Carrying
import FormEdit.Proofs.Weave.Following
import FormEdit.Proofs.Weave.Lifting
import FormEdit.Proofs.Weave.Margins
import FormEdit.Proofs.Weave.Matching
import FormEdit.Proofs.Weave.Nesting
import FormEdit.Proofs.Weave.Places
import FormEdit.Proofs.Weave.Reading
import FormEdit.Proofs.Weave.Renewal
import FormEdit.Proofs.Weave.Rereading
import FormEdit.Proofs.Weave.Retyping
import FormEdit.Proofs.Weave.Reviving
import FormEdit.Proofs.Weave.Room
import FormEdit.Proofs.Weave.Shape
import FormEdit.Proofs.Weave.Spelling
import FormEdit.Proofs.Weave.Striking
import FormEdit.Proofs.Weave.Trading
import FormEdit.Rejection
import FormEdit.Rejection.Excerpt
import FormEdit.Rejection.Snippet
import FormEdit.Rejection.Window
import FormEdit.Rose
import FormEdit.Route
import FormEdit.Slots
import FormEdit.Span
import FormEdit.Text.Blank
import FormEdit.Text.CharTable
import FormEdit.Text.Extender
import FormEdit.Text.Ignorable
import FormEdit.Text.Lines
import FormEdit.Text.Numeral
import FormEdit.Text.Pieces
import FormEdit.Text.Quoted
import FormEdit.Text.Row
import FormEdit.Text.Unprintable
import FormEdit.Text.Width
import FormEdit.Token
import FormEdit.Token.Lexer
import FormEdit.Tree
import FormEdit.Tree.Navigation
import FormEdit.Tree.Planting
import FormEdit.Tree.Shift
