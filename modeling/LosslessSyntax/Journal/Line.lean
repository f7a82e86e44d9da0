import LosslessSyntax.Journal.Timestamp
import LosslessSyntax.Report

/-!
# Log lines

A line is the level, a timestamp, the time since the line before, the tags and the message, with single blanks
between them. Tags without a value are left out, and so is a message that is missing or false.
-/

namespace LosslessSyntax

/-- Log levels, from the least to the most severe. -/
inductive Level where
  | debug
  | info
  | warn
  | error
  deriving DecidableEq, Repr

namespace Level

def all : List Level := [.debug, .info, .warn, .error]

def word : Level → Text
  | .debug => "DEBUG"
  | .info => "INFO"
  | .warn => "WARN"
  | .error => "ERROR"

def words : List (Text × Level) := all.map fun l => (l.word, l)

/-- The name of a logger's operation that writes a line of this level. -/
def operation : Level → Text
  | .debug => "debug"
  | .info => "info"
  | .warn => "warn"
  | .error => "error"

def severity : Level → Nat
  | .debug => 0
  | .info => 1
  | .warn => 2
  | .error => 3

/-- The word of a level and a blank, all of one width. -/
def heading : Level → Text
  | .debug => "DEBUG "
  | .info => "INFO  "
  | .warn => "WARN  "
  | .error => "ERROR "

end Level

/-- What decides which lines are written: a level, or any other value. -/
inductive Threshold where
  | level (level : Level)
  | other (value : Value)
  deriving DecidableEq

namespace Threshold

/-- The threshold that a value names. -/
def ofValue (v : Value) : Threshold :=
  match Level.all.find? fun l => Value.text l.word = v with
  | some l => .level l
  | none => .other v

def value : Threshold → Value
  | .level l => .text l.word
  | .other v => v

/-- Whether lines of a level are written. A value that is no level counts as the level of its text, and admits nothing
if there is none. -/
def admits (s : Store) (l : Level) : Threshold → Except Misuse Bool
  | .level threshold => .ok (threshold.severity ≤ l.severity)
  | .other v => do
    let word ← s.text v
    return (Level.words.lookup word).any fun threshold => threshold.severity ≤ l.severity

end Threshold

namespace LogLine

/-! ## Values -/

/-- A payload without a JSON form, as `name=value` pairs. -/
def payloadText (s : Store) (payload : Data) : Except Misuse Text :=
  if payload.isObject then do
    let pairs ← (payload.entries s).mapM fun (name, value) => return name ++ "=" ++ (← value.text s)
    return Text.join " " pairs
  else payload.text s

/-- A named error: the JSON of its name and payload. -/
def namedErrorText (s : Store) (name : Text) (payload : Data) : Except Misuse Text :=
  match (Report.namedRecord name payload).jsonText s .compact with
  | .ok json => .ok (json.getD [])
  | .error _ => do return name ++ ": " ++ (← payloadText s payload)

/-- An error: its message and, as long as errors caused it, theirs, down to a depth. -/
def errorText (s : Store) : Nat → Data → Except Misuse Text
  | depth, d => do
    match Report.errorKind? s d with
    | some (some name) => namedErrorText s name (← Report.payloadOf s d)
    | _ =>
      let message ← (← d.member s "message").text s
      match depth with
      | 0 => return message
      | depth + 1 =>
        let cause ← d.member s "cause"
        if (Report.errorKind? s cause).isSome then
          return message ++ " Caused by: " ++ (← errorText s depth cause)
        else return message

/-- How many causes are followed. -/
def causeDepth : Nat := 10

/-- The text of a tag's value: JSON for objects, if they have it, and plain text for all else. -/
def valueText (s : Store) (d : Data) : Except Misuse Text :=
  if (Report.errorKind? s d).isSome then errorText s causeDepth d
  else if d.isObject then
    match d.jsonText s .compact with
    | .ok json => .ok (json.getD [])
    | .error _ => d.text s
  else d.text s

/-! ## Lines -/

/-- The tags shown on a line: a logger's own, overlaid by those of the line, without those that have no value. -/
def shownTags (own extra : Members Data) : Members Data :=
  (own.merge extra).filter fun (_, value) => !value.isMissing

/-- Tags as `name=value`, with blanks between them. -/
def tagsText (s : Store) (tags : Members Data) : Except Misuse Text := do
  let texts ← tags.mapM fun (name, value) => return name ++ "=" ++ (← valueText s value)
  return Text.join " " texts

/-- The message of a line, if there is any; the text of one that is there may still be empty. -/
def messageText? (s : Store) (message : Data) : Except Misuse (Option Text) :=
  if message.truthy then some <$> message.text s else .ok none

/-- Puts the parts of a line together. -/
def compose (level : Level) (timestamp : Text) (elapsed : Number) (tags : Text) (message : Option Text) : Text :=
  let since : Text := "+" ++ Text.ofString elapsed.text ++ "ms"
  let parts := [timestamp, since] ++ (if tags = [] then [] else [tags]) ++ message.toList
  level.heading ++ Text.join " " parts ++ "\n"

end LogLine

end LosslessSyntax
