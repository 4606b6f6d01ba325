import FormEdit.Span

/-!
# Placed characters and tokens

A reader is given characters that carry their own positions. The positions need not be
consecutive: characters that are about to disappear share the position of the next one that stays.
-/

namespace FormEdit

/-- A character and the position it is reported at. -/
structure Placed where
  position : Nat
  char : Char
  deriving DecidableEq, Repr

namespace Placed

/-- Numbers characters consecutively. -/
def number : Nat → List Char → Checked (List Placed)
  | _, [] => .ok []
  | position, c :: rest =>
    if position < positionLimit then
      match number (position + 1) rest with
      | .ok more => .ok (⟨position, c⟩ :: more)
      | .error fault => .error fault
    else .error .positionOverflow

/-- The characters without their positions. -/
def text (chars : List Placed) : String := String.ofList (chars.map Placed.char)

end Placed

/-- A piece of text that a parser takes as one. -/
structure Token (κ : Type) where
  kind : κ
  content : String
  span : Span
  deriving DecidableEq, Repr

/-- The tokens of parenthesised forms. -/
inductive Mark where
  | opening
  | closing
  | quote
  | atom
  deriving DecidableEq, Repr

end FormEdit
