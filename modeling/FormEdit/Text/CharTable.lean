/-!
# Character tables

A property of characters is given by the code points it covers, as closed ranges in ascending
order. `covers` is the membership test.
-/

namespace FormEdit.Text

/-- Closed ranges of code points, ascending. -/
abbrev CharTable := List (Nat × Nat)

namespace CharTable

/-- Some range of the table holds the character. -/
def covers (table : CharTable) (c : Char) : Bool :=
  table.any fun range => range.1 ≤ c.toNat && c.toNat ≤ range.2

end CharTable

end FormEdit.Text
