import FormEdit.Rejection
import FormEdit.Text.Lines
import FormEdit.Text.Width

/-!
# The lines around a rejected span

A rejected span is looked up in the text by bytes: spans count characters, and parts of them past
the end of the text count as its end. The excerpt is the line that the span starts on and those
after it up to where the span ends.
-/

namespace FormEdit

/-- The byte at which the character number `count` of a text starts, or the end of the text. -/
def byteAt (text : String) (count : Nat) : Nat :=
  ((text.toList.take count).map Char.utf8Size).foldr (· + ·) 0

/-- The bytes of a span of characters. -/
def bytesOf (text : String) (span : Span) : Nat × Nat :=
  (byteAt text span.start, byteAt text span.stop)

/-- Whole lines of a text, and a span of characters that starts on the first of them. -/
structure Excerpt where
  /-- The number of the first line, counted from one. -/
  number : Nat
  /-- The lines without their ends. -/
  lines : List (List Char)
  /-- How many characters stand before the span on its line. -/
  start : Nat
  /-- How many characters stand before the end of the span, line ends included. -/
  stop : Nat
  deriving DecidableEq, Repr

/-- The columns of a line that are marked. -/
structure Underline where
  start : Nat
  stop : Nat
  deriving DecidableEq, Repr

namespace Excerpt

/-- The characters of the text that lie before a byte. -/
def before : Nat → List Char → List Char
  | _, [] => []
  | bytes, c :: rest => if c.utf8Size ≤ bytes then c :: before (bytes - c.utf8Size) rest else []

/-- The lines around the characters between two bytes. There are none where the span is empty and
stands on an empty line. -/
def around (text : List Char) (bytes : Nat × Nat) : Excerpt :=
  let lead := before bytes.1 text
  let start := (lead.reverse.takeWhile (· != '\n')).length
  let stop := start + ((before bytes.2 text).length - lead.length)
  let rest := text.drop (lead.length - start)
  { number := lead.count '\n' + 1
    lines := Text.lines (rest.take stop ++ (rest.drop stop).takeWhile (· != '\n'))
    start := start
    stop := stop }

/-- The marked columns of the line that the span starts on, at least one. -/
def mark (e : Excerpt) (line : List Char) : Underline :=
  let start := Text.columns 0 (line.take e.start)
  ⟨start, max (start + 1) (Text.columns 0 (line.take e.stop))⟩

/-- The place of the span in its line, counted from one. -/
def place (e : Excerpt) (line : List Char) : Nat := (line.take e.start).length + 1

end Excerpt

end FormEdit
