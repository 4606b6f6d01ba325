import FormEdit.Form.Reader
import FormEdit.Token.Lexer

/-!
# Languages

What editing needs to know of a language: how its texts split into tokens, how one form is read
from tokens, what goes between a form and its copy, and which characters read as one token when
they stand side by side.
-/

namespace FormEdit

structure Language (κ : Type) where
  /-- Splits placed characters into tokens. -/
  split : List Placed → Except Failure (List (Token κ))
  /-- Reads one form from the front and returns the tokens after it. -/
  read : List (Token κ) → Except Failure (Form × List (Token κ))
  /-- The text between a form and its copy. -/
  spacer : String
  /-- The two characters side by side are part of one token. -/
  fuses : Char → Char → Bool

namespace Language

variable {κ : Type}

/-- Reads characters that hold exactly one form. -/
def readWhole (l : Language κ) (chars : List Placed) : Except Failure Form := do
  let tokens ← l.split chars
  let (form, rest) ← l.read tokens
  match rest.head?, rest.getLast? with
  | some first, some last => reject .leftover (first.span.cover last.span)
  | _, _ => pure form

/-- Parenthesised forms. Two characters of atoms side by side are part of the same atom. -/
def parenthesised : Language Mark where
  split := Lexer.split
  read := Reader.readForm
  spacer := " "
  fuses left right := Lexer.inAtom left && Lexer.inAtom right

/-- The same forms, with no characters taken to read as one token. -/
def unfused : Language Mark := { parenthesised with fuses := fun _ _ => false }

/-- A list whose first child is not an atom. -/
def headless : Form → Bool
  | .node ⟨.list, _⟩ (head :: _) => !head.value.kind.isAtom
  | _ => false

/-- Only lists that start with an atom, or are empty, are read. The outermost list that does not
is the one rejected. -/
def headed (l : Language κ) : Language κ :=
  { l with
    read := fun tokens => do
      let (form, rest) ← l.read tokens
      match form.subtrees.find? headless with
      | some list => reject (.badToken "list head must be an atom") (Form.span list)
      | none => pure (form, rest) }

end Language

end FormEdit
