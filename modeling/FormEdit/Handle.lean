/-!
# Handles

A handle names a slot of a store together with the generation of the slot it was issued for, so
that it can tell its own value from whatever takes the slot later.
-/

namespace FormEdit

structure Handle where
  index : Nat
  generation : Nat
  deriving DecidableEq, Repr

def Handle.text (h : Handle) : String :=
  "Key(" ++ toString h.index ++ "v" ++ toString h.generation ++ ")"

end FormEdit
