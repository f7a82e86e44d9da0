import LosslessSyntax.Json
import LosslessSyntax.Store.Conversion

/-!
# Data

Data is a value of the store, or a list, a record or a named error that is written out and has no place in the store.
It can be asked for the same things as a value: its text, its members, its JSON. The JSON is what `JSON.stringify` gives.
What an object contains is part of it, so that it is a TypeError to ask for that of an object that contains itself, or of
a bigint.
-/

namespace LosslessSyntax

/-- Data. The message of a named error is its name. -/
inductive Data where
  | leaf (value : Value)
  | list (items : List Data)
  | record (members : List (Text × Data))
  | error (name : Text) (payload : Data) (cause : Value)

namespace Store

/-! ## JSON of values -/

/-- Members that have a JSON form. -/
def presentMembers (members : List (Text × Option Json)) : List (Text × Json) :=
  members.filterMap fun (name, json) => json.map fun j => (name, j)

/-- The least length of the JSON text of a sequence. Where there is a gap stands `null`. -/
def leastJson (q : Sequence) : Nat := 1 + 2 * q.entries.length + 5 * (q.length - q.entries.length)

/-- The JSON of a value, down to a depth; `path` lists the objects that are being written. Some values have none. -/
def jsonAt (s : Store) : Nat → List ObjectId → Value → Except Misuse (Option Json)
  | _, _, .undefined | _, _, .operation _ => .ok none
  | _, _, .null => .ok (some .null)
  | _, _, .bool b => .ok (some (.bool b))
  | _, _, .number n => .ok (some (.number n))
  | _, _, .bigint _ => .error .noText
  | _, _, .text t => .ok (some (.string t))
  | 0, _, .object _ => .error .circular
  | depth + 1, path, .object id =>
    if path.contains id then .error .circular
    else
      let json := jsonAt s depth (id :: path)
      match s.items? (.object id) with
      | some items => do
        if longestText < leastJson items then throw .tooLong
        let values ← items.toList.mapM fun item => json (item.getD .undefined)
        return some (.array (values.map (·.getD .null)))
      | none => do
        let members ← (s.listed (.object id)).mapM fun (name, value) => return (name, ← json value)
        return some (.object (presentMembers members))

/-- The JSON of a value. -/
def json (s : Store) (v : Value) : Except Misuse (Option Json) := s.jsonAt (s.size + 1) [] v

end Store

namespace Data

def undefined : Data := .leaf .undefined

def ofText (t : Text) : Data := .leaf (.text t)

def ofTexts (ts : List Text) : Data := .list (ts.map ofText)

/-! ## Members -/

/-- Whether data has members of its own, as objects do. -/
def isObject : Data → Bool
  | .leaf (.object _) | .list _ | .record _ | .error .. => true
  | .leaf _ => false

def truthy : Data → Bool
  | .leaf v => v.truthy
  | _ => true

def isMissing : Data → Bool
  | .leaf v => v.isMissing
  | _ => false

/-- Reads a member. -/
def member (s : Store) (name : Text) : Data → Except Misuse Data
  | .leaf v => Data.leaf <$> s.member name v
  | .list items => .ok (.leaf (if name = "length" then .ofNat items.length else undeclaredInList name))
  | .record members => .ok ((Members.get? members name).getD (.leaf (undeclared name)))
  | .error errorName payload cause =>
    .ok <|
      if name = "name" || name = "message" then ofText errorName
      else if name = "data" then payload
      else if name = "cause" then .leaf cause
      else if name = "toObject" || name = "schema" then .leaf (.operation name)
      else .leaf (undeclared name)

/-- The members that data lists. -/
def entries (s : Store) : Data → List (Text × Data)
  | .leaf v => (s.listed v).map fun (name, value) => (name, .leaf value)
  | .list items => Members.ofItems items
  | .record members => members
  | .error name payload _ => [("data", payload), ("name", ofText name)]

/-! ## Text -/

mutual

/-- The plain text of data. -/
def text (s : Store) : Data → Except Misuse Text
  | .leaf v => s.text v
  | .list items => return Text.join "," (← itemTexts s items)
  | .record _ => .ok "[object Object]"
  | .error name _ _ => .ok (Store.titled name name)

/-- The texts of items, in which missing values are empty. -/
def itemTexts (s : Store) : List Data → Except Misuse (List Text)
  | [] => .ok []
  | item :: rest => do
    let first ← if item.isMissing then .ok [] else text s item
    return first :: (← itemTexts s rest)

end

/-- The texts of the items of a list with a separator between them. -/
def joined (s : Store) (separator : Text) : Data → Except Misuse Text
  | .leaf v => s.joined separator v
  | .list items => return Text.join separator (← itemTexts s items)
  | _ => .error .noOperation

/-! ## JSON -/

mutual

/-- The JSON of data. -/
def json (s : Store) : Data → Except Misuse (Option Json)
  | .leaf v => s.json v
  | .list items => return some (.array (← jsonItems s items))
  | .record members => return some (.object (← jsonMembers s members))
  | .error name payload _ => do
    let data ← json s payload
    return some (.object (Store.presentMembers [("data", data), ("name", some (.string name))]))

def jsonItems (s : Store) : List Data → Except Misuse (List Json)
  | [] => .ok []
  | item :: rest => do
    let first ← json s item
    return first.getD .null :: (← jsonItems s rest)

def jsonMembers (s : Store) : List (Text × Data) → Except Misuse (List (Text × Json))
  | [] => .ok []
  | (name, value) :: rest => do
    let first ← json s value
    let others ← jsonMembers s rest
    return match first with
      | some j => (name, j) :: others
      | none => others

end

/-- The JSON text of data, if it has one. -/
def jsonText (s : Store) (style : Json.Style) (d : Data) : Except Misuse (Option Text) :=
  return (← d.json s).map (Json.render style)

end Data

end LosslessSyntax
