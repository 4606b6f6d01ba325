/-!
# Cutting a text at a separator

`pieces` cuts at every separator, `piecesUpTo` at the first few only. Neither loses a character.
-/

namespace FormEdit.Text

/-- The pieces between the separators; there is always one more piece than separators. -/
def pieces (separator : Char) : List Char → List (List Char)
  | [] => [[]]
  | c :: rest =>
    if c = separator then [] :: pieces separator rest
    else
      match pieces separator rest with
      | [] => [[c]]
      | piece :: more => (c :: piece) :: more

/-- As `pieces`, but with at most `cuts` cuts: the last piece may hold separators. -/
def piecesUpTo (separator : Char) : Nat → List Char → List (List Char)
  | 0, text => [text]
  | _ + 1, [] => [[]]
  | cuts + 1, c :: rest =>
    if c = separator then [] :: piecesUpTo separator cuts rest
    else
      match piecesUpTo separator (cuts + 1) rest with
      | [] => [[c]]
      | piece :: more => (c :: piece) :: more

end FormEdit.Text
