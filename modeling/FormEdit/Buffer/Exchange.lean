import FormEdit.Buffer.Slice

/-!
# Exchanging two spans

Two spans of a buffer trade places while what lies between them stays. The exchange keeps both
slices, so it can be undone to the last mark.
-/

namespace FormEdit

/-- Two exchanged spans, as they were, with their slices. -/
structure Exchange where
  earlier : Span
  later : Span
  earlierSlice : Buffer
  laterSlice : Buffer
  deriving DecidableEq, Repr

/-- Exchanges two spans of which the first ends before the second starts. -/
def Buffer.exchange (b : Buffer) (earlier later : Span) : Checked (Exchange × Buffer) :=
  if earlier.stop ≤ later.start then
    let laterSlice := b.copy later
    let b := b.cut later
    let earlierSlice := b.copy earlier
    let b := b.cut earlier
    let b := b.paste earlier.start laterSlice
    let b := b.paste (later.start - earlier.length + later.length) earlierSlice
    .ok (⟨earlier, later, earlierSlice, laterSlice⟩, b)
  else .error .overlap

/-- Puts both spans back where they were. -/
def Exchange.undo (x : Exchange) (b : Buffer) : Buffer :=
  let b := b.cut (Span.sized x.earlier.start x.later.length)
  let b := b.cut (Span.sized (x.later.start - x.earlier.length) x.earlier.length)
  let b := b.paste x.earlier.start x.earlierSlice
  b.paste x.later.start x.laterSlice

end FormEdit
