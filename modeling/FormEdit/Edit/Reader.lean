import FormEdit.Edit
import FormEdit.Text.Pieces

/-!
# Reading written edits

What is wrong with a text that is no edit is found in a fixed order: a missing argument, then a
bad one or an unknown word, then an argument too many.
-/

namespace FormEdit

/-- Why a text is not an edit. -/
inductive Misprint where
  | noArgument (text : String)
  | noCharacter (text : String)
  | notPosition (argument : String) (problem : Text.Numeral.Problem)
  | notRoute (argument : String) (problem : Text.Numeral.Problem)
  | notCharacter (argument : String)
  | unknownEdit (name : String)
  | tooManyArguments (text : String)
  deriving DecidableEq, Repr

namespace Misprint

def message : Misprint → String
  | .noArgument text => "`" ++ text ++ "` is missing its argument"
  | .noCharacter text => "`" ++ text ++ "` is missing a character"
  | .notPosition argument _ => "`" ++ argument ++ "` is not a position"
  | .notRoute argument _ => "`" ++ argument ++ "` is not a path"
  | .notCharacter argument => "`" ++ argument ++ "` is not a single character"
  | .unknownEdit name => "unknown edit `" ++ name ++ "`"
  | .tooManyArguments text => "`" ++ text ++ "` has too many arguments"

/-- What lies behind the message. -/
def causes : Misprint → List String
  | .notPosition _ problem => [problem.message]
  | .notRoute _ problem => [problem.message]
  | _ => []

end Misprint

namespace Edit

def readPosition (argument : List Char) : Except Misprint Nat :=
  (Text.Numeral.read positionLimit argument).mapError (.notPosition (String.ofList argument))

def readRoute (argument : List Char) : Except Misprint Route :=
  (Route.read (String.ofList argument)).mapError (.notRoute (String.ofList argument))

/-- Characters that may be written with a backslash. -/
def escapes : List (List Char × Char) :=
  [(['\\', 'n'], '\n'), (['\\', 't'], '\t'), (['\\', '\\'], '\\')]

/-- A character as such, or a newline, a tab or a backslash escaped by a backslash. -/
def readChar (argument : List Char) : Except Misprint Char :=
  match escapes.lookup argument with
  | some c => .ok c
  | none =>
    match argument with
    | [c] => .ok c
    | _ => .error (.notCharacter (String.ofList argument))

/-- An edit with a position or a route as its only argument. -/
def readSimple (name : String) (argument : List Char) : Except Misprint Edit :=
  match name with
  | "delete" => do
    let position ← readPosition argument
    pure (.delete position)
  | "up" => do
    let route ← readRoute argument
    pure (.up route)
  | "down" => do
    let route ← readRoute argument
    pure (.down route)
  | "dup" => do
    let route ← readRoute argument
    pure (.duplicate route)
  | _ => .error (.unknownEdit name)

/-- Reads a written edit. Only the first two colons separate anything. -/
def read (text : String) : Except Misprint Edit :=
  match Text.piecesUpTo ':' 2 text.toList with
  | name :: argument :: more =>
    match String.ofList name, more with
    | "insert", [] => .error (.noCharacter text)
    | "insert", character :: _ => do
      let position ← readPosition argument
      let c ← readChar character
      pure (.insert position c)
    | name, [] => readSimple name argument
    | name, _ :: _ => do
      let _ ← readSimple name argument
      .error (.tooManyArguments text)
  | _ => .error (.noArgument text)

end Edit

end FormEdit
