import LosslessSyntax.Check.Decoder
import LosslessSyntax.Fault

/-!
# Reports

Errors worded for a reader and for a log, as plain data, and checked against the shape that their class declares.

An error is recognised by its name alone: any object that has the name of a class is worded as that class asks, and
what it carries is not checked before. So wording can fail on a payload that lacks what is read from it.
-/

namespace LosslessSyntax.Report

/-! ## Recognition -/

/-- Whether data is an object of the given name. -/
def isNamed (s : Store) (name : Text) (d : Data) : Bool :=
  d.isObject && match d.member s "name" with
    | .ok (.leaf (.text t)) => t == name
    | _ => false

/-- The class whose name data has. -/
def classOf? (s : Store) (d : Data) : Option ErrorClass := ErrorClass.all.find? fun c => isNamed s c.name d

/-- Whether data is an error, and the name of its class if it is a named one. -/
def errorKind? (s : Store) : Data → Option (Option Text)
  | .leaf (.object id) =>
    if s.isA .error id then
      match s.maker? id with
      | some (.error named _ _) => some named
      | _ => some none
    else none
  | .error name _ _ => some (some name)
  | _ => none

/-! ## Wording -/

/-- Issues in brackets, if there are any. -/
def bracketedIssues (s : Store) (issues : Data) : Except Misuse Text := do
  if issues.isMissing then return []
  if (← issues.member s "length").truthy then
    let texts ← issues.joined s "; "
    return " (" ++ texts ++ ")"
  else return []

/-- The wording of an error of a class. An unknown error is its own message, whatever that is. -/
def wording (s : Store) (payload : Data) : ErrorClass → Except Misuse Data
  | .malformedTree => do
    let kind ← payload.member s "kind"
    let place ← if kind.truthy then (Text.ofString " in " ++ ·) <$> kind.text s else pure []
    let message ← (← payload.member s "message").text s
    return .ofText ("Internal error, tree corrupted" ++ place ++ ": " ++ message)
  | .detachedNode => do
    let kind ← (← payload.member s "kind").text s
    return .ofText ("Internal error, tree corrupted: " ++ kind ++ " is not attached to a source file")
  | .unknownKind => do
    let space ← (← payload.member s "registry").text s
    let kind ← (← payload.member s "kind").text s
    return .ofText ("Unknown " ++ space ++ " kind '" ++ kind ++ "'")
  | .invalidDefinition => do
    let issues ← bracketedIssues s (← payload.member s "issues")
    let message ← (← payload.member s "message").text s
    return .ofText ("Invalid grammar definition: " ++ message ++ issues)
  | .invalidRegistry => do
    let message ← (← payload.member s "message").text s
    return .ofText ("Invalid kind registry: " ++ message)
  | .invalidSettings => do
    let issues ← (← payload.member s "issues").joined s "; "
    return .ofText ("Invalid settings: " ++ issues)
  | .unknown => payload.member s "message"

/-- The wording of an error for a reader; `undefined` for data of no class. -/
def forReader (s : Store) (d : Data) : Except Misuse Data :=
  match classOf? s d with
  | some c => do wording s (← d.member s "data") c
  | none => .ok .undefined

/-- The first of two that is true, else the second. -/
def either (first second : Data) : Data := if first.truthy then first else second

/-- What caused an error, on a line of its own. -/
def causedBy (cause : Text) : Text := "\nCaused by: " ++ cause

/-- The wording of an error for a log, with causes down to a depth: that for a reader if there is one; otherwise the
stack text, or the message if that is empty, followed by what caused the error. The cause is worded first. -/
def forLogAt (s : Store) : Nat → Data → Except Misuse Data
  | 0, _ => .error .endless
  | depth + 1, d => do
    let worded ← forReader s d
    if worded.truthy then return worded
    if (errorKind? s d).isSome then
      let own := either (← d.member s "stack") (← d.member s "message")
      let cause ← d.member s "cause"
      let causeText ← if cause.truthy then causedBy <$> (do (← forLogAt s depth cause).text s) else pure []
      let ownText ← if own.isMissing then pure [] else own.text s
      return .ofText (ownText ++ causeText)
    else return .ofText (← d.text s)

/-- The name and the payload of a named error. -/
def namedRecord (name : Text) (payload : Data) : Data := .record [("name", .ofText name), ("data", payload)]

/-- The payload of a named error, as long as nothing else was put in the place of the operation that gives it. -/
def payloadOf (s : Store) (d : Data) : Except Misuse Data := do
  match ← d.member s "toObject" with
  | .leaf (.operation _) => d.member s "data"
  | _ => throw .noOperation

/-- An error as plain data, with causes down to a depth: its name and payload if it is named, and its parts if not. -/
def toRecordAt (s : Store) : Nat → Data → Except Misuse Data
  | 0, _ => .error .endless
  | depth + 1, d => do
    match errorKind? s d with
    | some (some name) => return namedRecord name (← payloadOf s d)
    | some none =>
      let cause ← d.member s "cause"
      let causeRecord ← if cause.truthy then toRecordAt s depth cause else pure .undefined
      return .record [("name", ← d.member s "name"), ("message", ← d.member s "message"),
        ("stack", ← d.member s "stack"), ("cause", causeRecord)]
    | none => return .record [("message", .ofText (← d.text s))]

/-- An error as plain data. -/
def toRecord (s : Store) (d : Data) : Except Misuse Data := toRecordAt s (s.size + 2) d

/-- Makes any data a named error. A named error stays as it is; any other becomes the cause of an unknown one. -/
def wrap (s : Store) (d : Data) : Except Misuse Data := do
  match errorKind? s d, d with
  | some (some _), d => return d
  | some none, .leaf v =>
    return .error ErrorClass.unknown.name (.record [("message", .leaf (← s.member "message" v))]) v
  | _, d => return .error ErrorClass.unknown.name (.record [("message", .ofText (← d.text s))]) .undefined

/-! ## Shape -/

open Decoder in
/-- What an error of a class is meant to carry. -/
def payloadDecoder : ErrorClass → Decoder Data
  | .malformedTree => object [("message", stringData), ("kind", optionalData stringData)]
  | .detachedNode => object [("kind", stringData)]
  | .unknownKind => object [("kind", stringOrNumber), ("registry", option spaces)]
  | .invalidDefinition => object [("message", stringData), ("issues", optionalData stringsData)]
  | .invalidRegistry => object [("message", stringData)]
  | .invalidSettings => object [("issues", stringsData)]
  | .unknown => object [("message", stringData)]
where
  /-- Text, kept as data. -/
  stringData : Decoder Data := fun s v => Data.ofText <$> string s v
  /-- A list of texts, kept as data. -/
  stringsData : Decoder Data := fun s v => Data.list <$> list stringData s v
  /-- Nothing, or what the inner decoder takes. -/
  optionalData (inner : Decoder Data) : Decoder Data := fun s v => (·.getD .undefined) <$> optional inner s v
  /-- The words for the two kind spaces. -/
  spaces : List (Text × Data) := [KindSpace.node, .token].map fun space => (space.word, .ofText space.word)

/-- Checks that a value has the name of a class and the payload that the class declares. A name that no class has
declares nothing of the payload. -/
def check (name : Text) : Decoder Data :=
  let payload := (ErrorClass.ofName? name).elim Decoder.any payloadDecoder
  Decoder.object [("name", fun s v => Data.ofText <$> Decoder.word name s v), ("data", payload)]

end LosslessSyntax.Report
