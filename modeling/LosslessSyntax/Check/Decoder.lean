import LosslessSyntax.Check.Issue
import LosslessSyntax.Store.Data

/-!
# Decoders

The schemas of `zod` that the library checks values by. A decoder turns a value from outside into a typed one, or lists
every issue it finds, in the order of the data: members in the order in which the decoder names them, items by index,
and the entries of a table in the order of its keys. `Decoder.object` is `z.object`, `Decoder.list` is `z.array`,
`Decoder.table` is `z.record`, and so on; a table is read without its own member `__proto__`, as `z.record` does.

The texts of issues name the type of what was found. It is told by the constructor of a value, and to ask for the name
of one can be a TypeError.
-/

namespace LosslessSyntax

/-! ## Kinds of values -/

namespace Store

/-- Whether a value is an object and no list. -/
def isRecordLike (s : Store) (v : Value) : Bool := v.object?.isSome && !s.isList v

/-- The ground by which an object was constructed, unless it declares a constructor of its own or has none. -/
def constructedBy? (s : Store) (id : ObjectId) : Option Ground :=
  (s.seek id "constructor").bind fun (holder, _) => Ground.ofId? holder

/-- Whether a value can be taken for a table of keys: a record, or an object that does not say of what kind it is. -/
def isTable (s : Store) (v : Value) : Bool :=
  match v with
  | .object id => !s.isList v && (s.constructedBy? id).all (· = .record)
  | _ => false

/-- The word for the kind of an object that a ground constructed; each class of named errors has its own. -/
def constructorWord (s : Store) (id : ObjectId) (g : Ground) : Text :=
  match g, s.maker? id with
  | .namedError, some (.error (some name) _ _) => name
  | g, _ => g.constructorName

/-- The word by which a message tells a kind of value. Words that stand for something else already are replaced by
what they stand for. -/
def messageWord (s : Store) (word : Text) : Except Misuse Text :=
  if word = "nan" then .ok "NaN"
  else
    match undeclared word with
    | .undefined => .ok word
    | meaning => s.text meaning

/-- The word for the kind of an object in messages, which an object can give by a constructor of its own. -/
def kindText (s : Store) (id : ObjectId) : Except Misuse Text :=
  match s.constructedBy? id with
  | some g => s.messageWord (s.constructorWord id g)
  | none => do
    let constructor := s.lookup id "constructor"
    if constructor.truthy then s.messageWord (← s.text (← s.member "name" constructor)) else return "object"

/-- The word for a value's type in messages. -/
def typeName (s : Store) (v : Value) : Except Misuse Text :=
  match v with
  | .undefined => .ok "undefined"
  | .null => .ok "null"
  | .bool _ => .ok "boolean"
  | .number .nan => .ok "NaN"
  | .number (.infinity negative) => .ok (if negative then "-Infinity" else "Infinity")
  | .number (.finite _) => .ok "number"
  | .bigint _ => .ok "bigint"
  | .text _ => .ok "string"
  | .operation _ => .ok "function"
  | .object id =>
    if s.isList v then .ok "array"
    else if s.base? id = some Ground.record.id then .ok "object"
    else s.kindText id

end Store

/-! ## Outcomes -/

/-- The outcome of decoding: a value, or all issues. It can also fail because something in a value cannot be read. -/
abbrev Checked (α : Type) := ExceptT (List Issue) (Except Misuse) α

abbrev Decoder (α : Type) := Store → Value → Checked α

namespace Checked

variable {α β γ : Type}

def reject (problem : Problem) : Checked α := throw [⟨[], problem⟩]

/-- Moves all issues below a name. -/
def under (name : Text) (outcome : Checked α) : Checked α :=
  outcome.adapt fun issues => issues.map (Issue.under name)

/-- Both values, or the issues of both. -/
def both (first : Checked α) (second : Checked β) : Checked (α × β) := ExceptT.mk do
  match ← first.run, ← second.run with
  | .ok a, .ok b => return .ok (a, b)
  | .error xs, .error ys => return .error (xs ++ ys)
  | .error xs, .ok _ => return .error xs
  | .ok _, .error ys => return .error ys

/-- All values, or the issues of all. -/
def all : List (Checked α) → Checked (List α)
  | [] => return []
  | first :: rest => do
    let (a, others) ← both first (all rest)
    return a :: others

end Checked

namespace Decoder

open Checked

variable {α : Type}

/-! ## Single values -/

def wrongType (expected : Text) (s : Store) (v : Value) : Checked α := do
  reject (.wrongType expected (← s.typeName v))

def any : Decoder Data := fun _ v => return .leaf v

/-- Any text. -/
def string : Decoder Text
  | _, .text t => return t
  | s, v => wrongType "string" s v

/-- What is reported of the length of a value that is no text. -/
def lengthIssues (s : Store) (v : Value) : Except Misuse (List Issue) := do
  if v.isMissing then return []
  match ← s.member "length" v with
  | .undefined => return []
  | length =>
    if ← s.atMost (.ofNat 1) length then return []
    return [⟨[], if s.isList v then .emptyList else .tooShort⟩]

/-- Text of at least one unit. Of any other value that has a length, too small a one is reported besides. -/
def nonEmptyString : Decoder Text
  | _, .text t => if t.isEmpty then reject .emptyText else return t
  | s, v => do
    let issues ← lengthIssues s v
    throw (⟨[], .wrongType "string" (← s.typeName v)⟩ :: issues)

/-- A natural number up to the greatest safe integer. Of a fraction nothing but that is reported. -/
def natural : Decoder Nat
  | _, .number (.finite q) =>
    if q.den ≠ 1 then reject (.wrongType "int" "number")
    else if (Number.greatestSafe : Int) < q.num then reject .integerTooBig
    else if q.num < -(Number.greatestSafe : Int) then throw [⟨[], .integerTooSmall⟩, ⟨[], .negative⟩]
    else if q.num < 0 then reject .negative
    else return q.num.toNat
  | s, v => wrongType "number" s v

/-- One of the listed words. -/
def option (options : List (Text × α)) : Decoder α
  | _, .text t =>
    match options.lookup t with
    | some a => return a
    | none => reject (.notAnOption (options.map (·.1)))
  | _, _ => reject (.notAnOption (options.map (·.1)))

/-- Exactly the given word. -/
def word (w : Text) : Decoder Text
  | _, .text t => if t = w then return t else reject (.notExactly w)
  | _, _ => reject (.notExactly w)

/-- Text, or a number that is finite. A value that is neither has to have a word for its type all the same. -/
def stringOrNumber : Decoder Data
  | _, .text t => return .ofText t
  | _, .number (.finite q) => return .leaf (.number (.finite q))
  | s, v => do
    let _ ← s.typeName v
    reject .noAlternative

/-- Nothing, or what the inner decoder takes. -/
def optional (inner : Decoder α) : Decoder (Option α)
  | _, .undefined => return none
  | s, v => some <$> inner s v

/-! ## Lists, tables and objects -/

/-- A list; the issues of an item stand below its index. -/
def list (item : Decoder α) : Decoder (List α) := fun s v =>
  match s.items? v with
  | some items =>
    Checked.all (items.toList.zipIdx.map fun (value, i) => (item s (value.getD .undefined)).under (Text.ofNat i))
  | none => wrongType "array" s v

/-- A record used as a table: every key must satisfy `key`, and the value of a key that does not is not looked at. -/
def table (key : Text → Bool) (value : Decoder α) : Decoder (Members α) := fun s v =>
  if s.isTable v then
    Checked.all (((s.listed v).filter (·.1 ≠ baseName)).map fun (name, member) =>
      Checked.under name do
        if key name then return (name, ← value s member) else reject .invalidKey)
  else wrongType "record" s v

/-- How an object's members are read, if the value is one. -/
def reader : Decoder (Text → Value) := fun s v =>
  if s.isRecordLike v then return fun name => (s.member name v).toOption.getD .undefined
  else wrongType "object" s v

/-- The issues of a member stand below its name. -/
def field (name : Text) (inner : Decoder α) (s : Store) (read : Text → Value) : Checked α :=
  (inner s (read name)).under name

/-- An object of the named members; others are dropped. -/
def object (fields : List (Text × Decoder Data)) : Decoder Data := fun s v => do
  let read ← reader s v
  let members ← Checked.all (fields.map fun (name, inner) => do return (name, ← field name inner s read))
  return .record members

end Decoder

end LosslessSyntax
