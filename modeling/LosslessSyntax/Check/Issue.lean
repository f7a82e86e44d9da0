import LosslessSyntax.Value.Basic

/-!
# Issues

What can be wrong with a value from outside at one place of it. An `Issue` is a `Problem` at a path; a decoder reports
all of them, not only the first.
-/

namespace LosslessSyntax

/-- What is wrong with a value. -/
inductive Problem where
  | wrongType (expected received : Text)
  | notAnOption (options : List Text)
  | notExactly (word : Text)
  | noAlternative
  | emptyText
  | emptyList
  | tooShort
  | integerTooBig
  | integerTooSmall
  | negative
  | invalidKey
  | unrecognizedKeys (keys : List Text)
  deriving DecidableEq

/-- The largest integer `n` such that `n` and `n + 1` are both exact. -/
def Number.greatestSafe : Nat := 9007199254740991

/-- A word between plain quotes. -/
def Problem.quoted (word : Text) : Text := "\"" ++ word ++ "\""

def Problem.message : Problem → Text
  | .wrongType expected received => "Invalid input: expected " ++ expected ++ ", received " ++ received
  | .notAnOption options => "Invalid option: expected one of " ++ Text.join "|" (options.map quoted)
  | .notExactly word => "Invalid input: expected " ++ quoted word
  | .noAlternative => "Invalid input"
  | .emptyText => "Too small: expected string to have >=1 characters"
  | .emptyList => "Too small: expected array to have >=1 items"
  | .tooShort => "Too small: expected unknown to be >=1"
  | .integerTooBig => "Too big: expected int to be <=" ++ Text.ofNat Number.greatestSafe
  | .integerTooSmall => "Too small: expected int to be >=-" ++ Text.ofNat Number.greatestSafe
  | .negative => "Too small: expected number to be >=0"
  | .invalidKey => "Invalid key in record"
  | .unrecognizedKeys keys =>
    (if keys.length = 1 then "Unrecognized key: " else "Unrecognized keys: ") ++ Text.join ", " (keys.map quoted)

/-- A problem and the names that lead to it. -/
structure Issue where
  path : List Text
  problem : Problem
  deriving DecidableEq

namespace Issue

/-- The path with dots between its names. -/
def location (i : Issue) : Text := Text.join "." i.path

/-- The location, a colon and the message. -/
def text (i : Issue) : Text := i.location ++ ": " ++ i.problem.message

/-- Like `text`, with a word for the empty location. -/
def rootedText (i : Issue) : Text :=
  (if i.location.isEmpty then Text.ofString "(root)" else i.location) ++ ": " ++ i.problem.message

def under (name : Text) (i : Issue) : Issue := { i with path := name :: i.path }

end Issue

end LosslessSyntax
