import LosslessSyntax.Value.Members
import LosslessSyntax.Value.Basic

/-!
# Grounds

Every store begins with the same few objects, its grounds: the prototypes `Object.prototype`, `Array.prototype` and
`Error.prototype`, and those of the classes of named errors, nodes and source files. An object extends the ground of its
kind until something else is put in that place, and by what it extends it is known for a record, a list, an error or a
node, as `instanceof` knows it. The operations that all objects of a kind answer to, its methods, are members of its
ground.

Values that are no objects answer to the operations of records and to some of their own.
-/

namespace LosslessSyntax

/-- What the objects of a store extend in the end. Named errors extend errors, and source files extend nodes. -/
inductive Ground where
  | record
  | list
  | error
  | namedError
  | node
  | file
  deriving DecidableEq

/-- The name under which every object answers with what it extends. -/
def baseName : Text := "__proto__"

/-! ## Operations -/

/-- Names of operations that every object answers to. -/
def commonOperations : List Text :=
  ["__defineGetter__", "__defineSetter__", "hasOwnProperty", "__lookupGetter__", "__lookupSetter__", "isPrototypeOf",
    "propertyIsEnumerable", "toString", "valueOf", "toLocaleString"].map Text.ofString

/-- Names of operations that lists have of their own. -/
def listOperations : List Text :=
  ["at", "concat", "copyWithin", "entries", "every", "fill", "filter", "find", "findIndex", "findLast", "findLastIndex",
    "flat", "flatMap", "forEach", "includes", "indexOf", "join", "keys", "lastIndexOf", "map", "pop", "push", "reduce",
    "reduceRight", "reverse", "shift", "slice", "some", "sort", "splice", "toLocaleString", "toReversed", "toSorted",
    "toSpliced", "toString", "unshift", "values", "with"].map Text.ofString

/-- Names of operations that texts answer to besides. -/
def textOperations : List Text :=
  ["anchor", "at", "big", "blink", "bold", "charAt", "charCodeAt", "codePointAt", "concat", "endsWith", "fixed",
    "fontcolor", "fontsize", "includes", "indexOf", "isWellFormed", "italics", "lastIndexOf", "link", "localeCompare",
    "match", "matchAll", "normalize", "padEnd", "padStart", "repeat", "replace", "replaceAll", "search", "slice",
    "small", "split", "startsWith", "strike", "sub", "substr", "substring", "sup", "toLocaleLowerCase",
    "toLocaleUpperCase", "toLowerCase", "toUpperCase", "toWellFormed", "trim", "trimEnd", "trimLeft", "trimRight",
    "trimStart"].map Text.ofString

/-- Names of operations that numbers answer to besides. -/
def numberOperations : List Text := ["toExponential", "toFixed", "toPrecision"].map Text.ofString

/-- Names of operations that take no arguments. -/
def nullaryOperations : List Text :=
  ["toString", "valueOf", "toLocaleString", "pop", "reverse", "shift", "keys", "entries", "values", "flat",
    "toReversed", "big", "blink", "bold", "fixed", "isWellFormed", "italics", "normalize", "small", "strike", "sub",
    "sup", "toWellFormed", "trim", "trimStart", "trimLeft", "trimEnd", "trimRight", "toLocaleLowerCase",
    "toLocaleUpperCase", "toLowerCase", "toUpperCase", "schema", "toObject", "variants", "clone",
    "stop"].map Text.ofString

/-- Names of operations that take two arguments. -/
def binaryOperations : List Text :=
  ["__defineGetter__", "__defineSetter__", "copyWithin", "slice", "splice", "toSpliced", "with", "replace",
    "replaceAll", "split", "substr", "substring", "TreeNode", "debug", "info", "warn", "error", "tag",
    "time"].map Text.ofString

/-- The length of an operation, which is the number of its arguments. Most take one. -/
def operationLength (name : Text) : Nat :=
  if nullaryOperations.contains name then 0
  else if binaryOperations.contains name then 2
  else if name = "SourceFileNode" then 4
  else 1

/-- Operations as members. -/
def operationMembers (names : List Text) : Members Value := names.map fun name => (name, .operation name)

/-- The text of an operation. -/
def operationText (name : Text) : Text := "function " ++ name ++ "() \x7b [native code] \x7d"

/-! ## Grounds -/

namespace Ground

def all : List Ground := [.record, .list, .error, .namedError, .node, .file]

/-- The number of a ground: its place in the store. -/
def id : Ground → ObjectId
  | .record => 0
  | .list => 1
  | .error => 2
  | .namedError => 3
  | .node => 4
  | .file => 5

/-- The ground of a number. -/
def ofId? (id : ObjectId) : Option Ground := all[id]?

/-- What a ground extends itself. -/
def base? : Ground → Option Ground
  | .record => none
  | .list | .error | .node => some .record
  | .namedError => some .error
  | .file => some .node

/-- The name of the operation that makes objects of a kind. -/
def constructorName : Ground → Text
  | .record => "Object"
  | .list => "Array"
  | .error | .namedError => "Error"
  | .node => "TreeNode"
  | .file => "SourceFileNode"

/-- The members of a ground beside its constructor. Two names stand for what differs from one object to the next: the
base of any object and the parent of a node. -/
def ownMembers : Ground → Members Value
  | .record => operationMembers (baseName :: commonOperations)
  | .list => ("length", .ofNat 0) :: operationMembers listOperations
  | .error => ("name", .text "Error") :: ("message", .text []) :: operationMembers ["toString"]
  | .namedError => operationMembers ["schema", "toObject"]
  | .node => operationMembers ["parent"]
  | .file => []

/-- The members of a ground, none of which it lists. -/
def members (g : Ground) : Members Value := ("constructor", .operation g.constructorName) :: g.ownMembers

end Ground

/-! ## Names that are not declared -/

/-- What an undeclared name gives where only the common operations are known. -/
def undeclared (name : Text) : Value :=
  if name = baseName then .object Ground.record.id else (Ground.record.members.get? name).getD .undefined

/-- What a name gives in a list that does not have such a member. -/
def undeclaredInList (name : Text) : Value :=
  if name = baseName then .object Ground.list.id else (Ground.list.members.get? name).getD (undeclared name)

/-- What a name gives in a text that does not have such a member. -/
def undeclaredInText (name : Text) : Value :=
  if textOperations.contains name then .operation name else undeclared name

/-- What a name gives in a number. -/
def undeclaredInNumber (name : Text) : Value :=
  if numberOperations.contains name then .operation name else undeclared name

end LosslessSyntax
