/-!
# Decimal numerals of bounded size

A numeral is an optional plus sign followed by decimal digits. It is read from the left, and the
first character at which something is wrong decides what is wrong with the whole.
-/

namespace FormEdit.Text.Numeral

/-- Why a text is not a numeral below the limit. -/
inductive Problem where
  | empty
  | invalidDigit
  | tooLarge
  deriving DecidableEq, Repr

def Problem.message : Problem → String
  | .empty => "cannot parse integer from empty string"
  | .invalidDigit => "invalid digit found in string"
  | .tooLarge => "number too large to fit in target type"

/-- The value of a decimal digit. -/
def digit? (c : Char) : Option Nat :=
  if '0' ≤ c ∧ c ≤ '9' then some (c.toNat - '0'.toNat) else none

/-- Reads digits onto the value read so far, which stays below `limit`. -/
def readDigits (limit : Nat) : Nat → List Char → Except Problem Nat
  | value, [] => .ok value
  | value, c :: rest =>
    match digit? c with
    | none => .error .invalidDigit
    | some d =>
      if value * 10 + d < limit then readDigits limit (value * 10 + d) rest
      else .error .tooLarge

/-- Reads a numeral below `limit`. A sign alone has no digits and is refused as one. -/
def read (limit : Nat) : List Char → Except Problem Nat
  | [] => .error .empty
  | ['+'] => .error .invalidDigit
  | '+' :: digits => readDigits limit 0 digits
  | digits => readDigits limit 0 digits

end FormEdit.Text.Numeral
