import LosslessSyntax.Grammar.Table
import LosslessSyntax.Store.Ground
import LosslessSyntax.Token
import LosslessSyntax.Value.Sequence

/-!
# Objects

What the store holds. Records, lists and errors come from outside and can be changed; tokens, variants, registries and
grammars never change; nodes are made by the library, but members of them can be assigned from outside, and what is
assigned hides what the node was made with. The slots of a node are a sealed record of their own, and so is each list in
them a sealed list. A sealed object is one that `Object.freeze` was called on.

Every object lists its own enumerable members. Errors and lists have some that are not enumerable.
-/

namespace LosslessSyntax

/-! ## Nodes -/

/-- The source text that a source file holds, and its end-of-file token. -/
structure File where
  source : Source
  endOfFile : ObjectId
  deriving DecidableEq

/-- A node, made of a variant and the record of its slots. -/
structure Node where
  variant : Variant
  slots : ObjectId
  file : Option File := none
  assigned : Members Value := []
  deriving DecidableEq

namespace Node

def isSourceFile (n : Node) : Bool := n.file.isSome

/-- The members that a node is made with. -/
def madeWith (n : Node) : Members Value :=
  let fileMembers : Members Value := match n.file with
    | some f => [("source", .text f.source.text), ("endOfFileToken", .object f.endOfFile)]
    | none => []
  ("variant", .object n.variant.self) :: ("children", .object n.slots) :: ("tag", .text "node") ::
    ("kind", .ofNat n.variant.kind) :: fileMembers

/-- The members that a node shows, assigned ones included. -/
def members (n : Node) : Members Value := n.madeWith.merge n.assigned

end Node

/-! ## Objects -/

inductive Object where
  | ground (ground : Ground)
  | record (members : Members Value) (isSealed : Bool)
  | list (items : Sequence) (members : Members Value) (isSealed : Bool)
  | error (named : Option Text) (hidden members : Members Value)
  | token (token : Token)
  | node (node : Node)
  | variant (variant : Variant)
  | registry (registry : Registry)
  | grammar (grammar : Grammar)
  | logger (members : Members Value)
  deriving DecidableEq

namespace Object

/-- The members that an object lists. -/
def listed : Object → Members Value
  | .ground _ => []
  | .record m _ => m
  | .list items m _ => items.members ++ m
  | .error _ _ m => m
  | .token t => t.members
  | .node n => n.members
  | .variant v => v.members
  | .registry r => r.members
  | .grammar g => g.members
  | .logger m => m

/-- The members that an object has without listing them. -/
def hidden : Object → Members Value
  | .ground g => g.members
  | .list items _ _ => [("length", .ofNat items.length)]
  | .error _ h _ => h
  | _ => []

/-- A member of the object's own. -/
def own? (o : Object) (name : Text) : Option Value :=
  match o with
  | .list items m _ =>
    match Members.index? name with
    | some i => items.get? i
    | none => if name = "length" then some (.ofNat items.length) else m.get? name
  | o => (o.hidden.get? name).or (o.listed.get? name)

/-- Whether an object refuses to be changed. -/
def isSealed : Object → Bool
  | .record _ isSealed | .list _ _ isSealed => isSealed
  | .token _ | .variant _ | .registry _ | .grammar _ => true
  | .ground _ | .error .. | .node _ | .logger .. => false

/-- What an object extends when it is made. -/
def base? : Object → Option ObjectId
  | .ground g => g.base?.map Ground.id
  | .list .. => some Ground.list.id
  | .error named _ _ => some (if named.isSome then Ground.namedError.id else Ground.error.id)
  | .node n => some (if n.isSourceFile then Ground.file.id else Ground.node.id)
  | _ => some Ground.record.id

/-- An object of four token fields: a token if the offsets are numbers, and a sealed record of the same members if
not. -/
def ofFields (kind fullStart start length : Value) : Object :=
  match fullStart, start, length with
  | .number f, .number s, .number l => .token ⟨kind, f, s, l⟩
  | _, _, _ =>
    .record [("tag", .text "token"), ("kind", kind), ("fullStart", fullStart), ("start", start), ("length", length)]
      true

/-- A record of members that can be changed. -/
def ofMembers (members : Members Value) : Object := .record members false

/-- A list of values that can be changed. -/
def ofItems (items : List Value) : Object := .list (.ofList items) [] false

/-- The items of an object that is a list. -/
def items? : Object → Option Sequence
  | .ground .list => some .empty
  | .list items _ _ => some items
  | _ => none

def node? : Object → Option Node
  | .node n => some n
  | _ => none

end Object

end LosslessSyntax
