import LosslessSyntax.Store.Basic

/-!
# Texts and numbers of values

Every value but a few has a plain text, and every value but a bigint stands for a number: its own, or that of its text.
An object gives its text by the function that it has under `toString`, which is a TypeError if there is none. Sums,
differences and comparisons of values are those of the texts or numbers they stand for. The text of a list is that of
its items; a list that contains itself is empty where it does.
-/

namespace LosslessSyntax.Store

/-! ## Numbers of texts -/

/-- The number that a text spells; a NaN if it spells none. -/
def numberOfText (t : Text) : Number := (t.toString?.bind Number.parse?).getD .nan

/-- The integer that a text spells; a NaN if it spells none. -/
def integerOfText (t : Text) : Number := (t.toString?.bind Number.parseInteger?).elim .nan fun i => .finite i

/-- The number a value stands for, given the texts of objects. -/
def numberBy (textOf : Value → Except Misuse Text) (v : Value) : Except Misuse Number :=
  match v with
  | .undefined | .operation _ => .ok .nan
  | .null => .ok 0
  | .bool b => .ok (if b then 1 else 0)
  | .number n => .ok n
  | .bigint _ => .error .noNumber
  | .text t => .ok (numberOfText t)
  | .object _ => numberOfText <$> textOf v

/-! ## Elements

Any object can be gone through like a list, by its length and its members of those indices. -/

/-- A number as a length: without its fraction and moved into the range of exact integers. -/
def lengthOfNumber : Number → Nat
  | .nan => 0
  | .infinity negative => if negative then 0 else Number.exactBound - 1
  | .finite q => min (Number.truncate q).toNat (Number.exactBound - 1)

/-- The length of an object, given the texts of objects. -/
def lengthBy (textOf : Value → Except Misuse Text) (s : Store) (id : ObjectId) : Except Misuse Nat :=
  match (s.object? id).bind Object.items? with
  | some items => .ok items.length
  | none => lengthOfNumber <$> numberBy textOf (s.lookup id "length")

/-- The elements of an object, given the texts of objects. -/
def elementsBy (textOf : Value → Except Misuse Text) (s : Store) (id : ObjectId) : Except Misuse Sequence :=
  match s.items? (.object id) with
  | some items => .ok items
  | none => do return s.elementsBelow id (← lengthBy textOf s id)

/-! ## Text -/

/-- How the text of an object is made: by its kind alone, from its items, or from its name and message. -/
inductive TextForm where
  | label
  | joined
  | titled
  deriving DecidableEq

/-- How the objects of a kind are written; only some kinds have a way of their own. -/
def textForm : Ground → TextForm
  | .list => .joined
  | .error => .titled
  | _ => .label

/-- The way in which an object is written, which comes with its kind. An object that declares the function that is
common to all objects, `Object.prototype.toString`, shows its kind alone. One that declares anything else, or whose
chain does not lead to a ground, has no text; what other functions give that are called in that place is left out. -/
def textForm? (s : Store) (id : ObjectId) : Option TextForm :=
  (s.seek id "toString").bind fun (holder, declared) =>
    match Ground.ofId? holder with
    | some g => some (textForm g)
    | none => if declared = .operation "toString" then some .label else none

/-- The text of an object that has only its kind to show. -/
def label (s : Store) (id : ObjectId) : Text :=
  match s.object? id with
  | some (.list ..) | some (.ground .list) => "[object Array]"
  | some (.error ..) => "[object Error]"
  | _ => "[object Object]"

/-- `name: message`, or only one of them if the other is empty. -/
def titled (name message : Text) : Text :=
  if name.isEmpty then message else if message.isEmpty then name else name ++ ": " ++ message

/-- The greatest length of a text. -/
def longestText : Nat := 536870888

/-- Whether an object can be joined; only lists come with that operation. -/
def canJoin (s : Store) (id : ObjectId) : Bool := (s.lookup id "join").isOperation

/-- The elements of an object with a separator between them, given the texts of objects. Missing ones are empty. -/
def joinBy (textOf : Value → Except Misuse Text) (s : Store) (separator : Text) (id : ObjectId) :
    Except Misuse Text := do
  if longestText < separator.length * ((← lengthBy textOf s id) - 1) then throw .tooLong
  let texts ← (← elementsBy textOf s id).toList.mapM fun item =>
    let value := item.getD .undefined
    if value.isMissing then .ok [] else textOf value
  return Text.join separator texts

/-- The plain text of a value, down to a depth; `path` lists the lists that are being written. -/
def textAt (s : Store) : Nat → List ObjectId → Value → Except Misuse Text
  | _, _, .undefined => .ok "undefined"
  | _, _, .null => .ok "null"
  | _, _, .bool b => .ok (if b then "true" else "false")
  | _, _, .number n => .ok n.text
  | _, _, .bigint i => .ok (toString i)
  | _, _, .text t => .ok t
  | _, _, .operation name => .ok (operationText name)
  | 0, _, .object _ => .error .endless
  | depth + 1, path, .object id =>
    match s.textForm? id with
    | none => .error .noText
    | some .label => .ok (s.label id)
    | some .joined =>
      if !s.canJoin id then .ok (s.label id)
      else if path.contains id then .ok []
      else joinBy (textAt s depth (id :: path)) s "," id
    | some .titled => do
      let name ← match s.lookup id "name" with
        | .undefined => .ok (Text.ofString "Error")
        | name => textAt s depth path name
      let message ← match s.lookup id "message" with
        | .undefined => .ok []
        | message => textAt s depth path message
      return titled name message

/-- The plain text of a value. A chain of distinct objects is no longer than the store. -/
def text (s : Store) (v : Value) : Except Misuse Text := s.textAt (s.size + 2) [] v

/-- The texts of the elements of an object with a separator between them. The object is empty where it contains
itself. -/
def joined (s : Store) (separator : Text) (v : Value) : Except Misuse Text :=
  match v with
  | .undefined | .null => .error .noMembers
  | .object id => if s.canJoin id then joinBy (s.textAt (s.size + 2) [id]) s separator id else .error .noOperation
  | _ => .error .noOperation

/-! ## Numbers -/

/-- A value itself, or the text of an object. -/
def primitive (s : Store) (v : Value) : Except Misuse Value :=
  match v with
  | .object _ | .operation _ => Value.text <$> s.text v
  | v => .ok v

/-- The number a value stands for. -/
def toNumber (s : Store) (v : Value) : Except Misuse Number := numberBy s.text v

/-- The length of an object. -/
def length (s : Store) (id : ObjectId) : Except Misuse Nat := lengthBy s.text s id

/-- The elements of an object. -/
def elements (s : Store) (id : ObjectId) : Except Misuse Sequence := elementsBy s.text s id

/-- Applies an operation to two values as numbers, or as bigints if both are. -/
def arithmetic (s : Store) (onNumbers : Number → Number → Number) (onIntegers : Int → Int → Int) (a b : Value) :
    Except Misuse Value := do
  match ← s.primitive a, ← s.primitive b with
  | .bigint i, .bigint j => return .bigint (onIntegers i j)
  | a, b => return .number (onNumbers (← s.toNumber a) (← s.toNumber b))

/-- The difference of two values. -/
def minus (s : Store) (a b : Value) : Except Misuse Value := s.arithmetic (· - ·) (· - ·) a b

/-- The sum of two values; if either is text, both texts in a row. -/
def plus (s : Store) (a b : Value) : Except Misuse Value := do
  match ← s.primitive a, ← s.primitive b with
  | .text t, b => return .text (t ++ (← s.text b))
  | a, .text t => return .text ((← s.text a) ++ t)
  | a, b => s.arithmetic (· + ·) (· + ·) a b

/-! ## Comparison -/

/-- The exact number by which a value that is no object is compared. -/
def comparand : Value → Number
  | .null => 0
  | .bool b => if b then 1 else 0
  | .number n => n
  | .bigint i => .finite i
  | .text t => numberOfText t
  | .undefined | .object _ | .operation _ => .nan

/-- What two values are compared as. -/
inductive Comparison where
  | texts (first second : Text)
  | numbers (first second : Number)

/-- Two texts are compared by their units and all else as numbers. Beside a bigint a text has to spell an integer. -/
def comparison : Value → Value → Comparison
  | .text t, .text u => .texts t u
  | .text t, .bigint i => .numbers (integerOfText t) (.finite i)
  | .bigint i, .text t => .numbers (.finite i) (integerOfText t)
  | a, b => .numbers (comparand a) (comparand b)

/-- Whether a value is less than another. -/
def lessThan (s : Store) (a b : Value) : Except Misuse Bool := do
  match comparison (← s.primitive a) (← s.primitive b) with
  | .texts t u => return t.precedes u
  | .numbers m n => return m.lt n

/-- Whether a value is less than another or equal to it. -/
def atMost (s : Store) (a b : Value) : Except Misuse Bool := do
  match comparison (← s.primitive a) (← s.primitive b) with
  | .texts t u => return !u.precedes t
  | .numbers m n => return m.le n

end LosslessSyntax.Store
