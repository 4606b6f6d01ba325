import FormEdit.Text.CharTable

/-!
# Blank and control characters

Blanks separate tokens: the characters with the property White_Space. Controls are the
characters of general category Cc; a few of them (tab, the line ends) are blank as well.
-/

namespace FormEdit.Text

/-- The characters with the property White_Space. -/
def blanks : CharTable :=
  [(0x9, 0xd), (0x20, 0x20), (0x85, 0x85), (0xa0, 0xa0), (0x1680, 0x1680), (0x2000, 0x200a),
   (0x2028, 0x2029), (0x202f, 0x202f), (0x205f, 0x205f), (0x3000, 0x3000)]

/-- The characters of general category Cc. -/
def controls : CharTable :=
  [(0x0, 0x1f), (0x7f, 0x9f)]

def isBlank (c : Char) : Bool := blanks.covers c

def isControl (c : Char) : Bool := controls.covers c

end FormEdit.Text
