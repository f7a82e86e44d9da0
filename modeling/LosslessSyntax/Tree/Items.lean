import LosslessSyntax.Tree.Shape

/-!
# Items

The children of a node in document order: slots in source order, lists in place, missing entries left out. Reading an
item that is neither a node nor a token is a fault of the tree.

A `Cursor` is a place among the entries of one node. `Store.itemsFrom` lists the items from a cursor on, each with the
cursor just after it. `Store.foldBelow` and `Store.searchBelow` go through everything below a node, each node before
what is below it, and look no further than they have to.
-/

namespace LosslessSyntax

/-- A node or a token. A node that has the members of a token besides is one, too. -/
inductive Element where
  | node (id : ObjectId) (token : Option Token)
  | token (id : ObjectId) (token : Token)
  deriving DecidableEq

namespace Element

def id : Element → ObjectId
  | .node id _ => id
  | .token id _ => id

def value (e : Element) : Value := .object e.id

/-- The node that an element is. -/
def node? : Element → Option ObjectId
  | .node id _ => some id
  | .token .. => none

/-- The token that an element is. -/
def token? : Element → Option (ObjectId × Token)
  | .node id t => t.map fun t => (id, t)
  | .token id t => some (id, t)

end Element

/-- A child of a node as it is met in order: a value in a slot, or a slot that cannot be read. -/
inductive Item where
  | value (slot : Text) (value : Value)
  | unreadable (misuse : Misuse)
  deriving DecidableEq

/-- The next entry of a node to look at: a position in the first of the slots that are left, if it holds a list. -/
structure Cursor where
  node : Value
  slots : List Text
  index : Nat
  deriving DecidableEq

namespace Store

variable {m : Type → Type} [Monad m] [Reports m]

/-! ## Children -/

/-- The values that are met in a slot with their places, given what stands in it. -/
def slotEntries (s : Store) (content : Value) : List (Nat × Value) :=
  (((s.items? content).map Sequence.entries).getD [(0, content)]).filter (!·.2.isMissing)

/-- The items of one slot. -/
def slotItems (s : Store) (v : Value) (slot : Text) : List Item :=
  match s.slotContent v slot with
  | .ok content => (s.slotEntries content).map fun entry => .value slot entry.2
  | .error m => [.unreadable m]

/-- The children of a node in document order. -/
def items (s : Store) (v : Value) : m (List Item) := do
  return (← s.slotNames v).flatMap (s.slotItems v)

/-- The element that a value is. -/
def elementOf? (s : Store) : Value → Option Element
  | .object id => if s.isNode id then some (.node id (s.token? id)) else (s.token? id).map (.token id)
  | _ => none

/-- The element that an item of a node is, or the failure of reading it. -/
def read (s : Store) (owner : Value) : Item → m Element
  | .value slot value =>
    match s.elementOf? value with
    | some e => return e
    | none => s.malformed (.foreignValue slot) owner
  | .unreadable misuse => throw (.misuse misuse)

/-! ## Cursors -/

/-- The cursor before all entries of a node. -/
def openCursor (s : Store) (v : Value) : m Cursor := return ⟨v, ← s.slotNames v, 0⟩

/-- The items of the slots that are left, the list of the first from `index` on, each with the cursor after it. -/
def itemsOfSlots (s : Store) (v : Value) : List Text → Nat → List (Item × Cursor)
  | [], _ => []
  | slot :: rest, index =>
    match s.slotContent v slot with
    | .error m => [(.unreadable m, ⟨v, slot :: rest, index⟩)]
    | .ok content =>
      if s.isList content then
        ((s.slotEntries content).filter (index ≤ ·.1)).map (fun (place, value) =>
          (.value slot value, ⟨v, slot :: rest, place + 1⟩)) ++ itemsOfSlots s v rest 0
      else
        (s.slotEntries content).map (fun (_, value) => (.value slot value, ⟨v, rest, index⟩)) ++
          itemsOfSlots s v rest index

/-- The items from a cursor on, each with the cursor after it. -/
def itemsFrom (s : Store) (c : Cursor) : List (Item × Cursor) := s.itemsOfSlots c.node c.slots c.index

/-! ## Descendants -/

variable {α β : Type}

/-- Goes through the elements below a node in document order, down to a depth, and stops at the first failure. -/
def foldBelow (s : Store) (step : β → Element → m β) : Nat → Value → β → m β
  | 0, _, _ => throw (.misuse .endless)
  | depth + 1, v, state => do
    (← s.items v).foldlM (fun state item => do
      let e ← s.read v item
      let state ← step state e
      match e with
      | .node child _ => foldBelow s step depth (.object child) state
      | .token .. => return state) state

/-- Goes through the elements below a node in document order. -/
def foldElements (s : Store) (step : β → Element → m β) (v : Value) (state : β) : m β :=
  s.foldBelow step (s.size + 1) v state

/-- The elements below a node in document order, unless reading one of them fails. -/
def descendants (s : Store) (v : Value) : m (List Element) := do
  return (← s.foldElements (fun elements e => return e :: elements) v []).reverse

/-- The nodes below a node in document order, unless a failure is met. -/
def descendantNodes (s : Store) (v : Value) : m (List ObjectId) := do
  return (← s.descendants v).filterMap Element.node?

/-- Searches the tokens below a node in document order, down to a depth, and looks no further than the first one for
which the search has an answer. -/
def searchBelow (s : Store) (answer : ObjectId → Token → m (Option α)) : Nat → Value → m (Option α)
  | 0, _ => throw (.misuse .endless)
  | depth + 1, v => do
    (← s.items v).findSomeM? fun item => do
      match ← s.read v item with
      | .node child none => searchBelow s answer depth (.object child)
      | .node child (some t) =>
        match ← answer child t with
        | some a => return some a
        | none => searchBelow s answer depth (.object child)
      | .token id t => answer id t

/-- Searches the tokens below a node in document order. -/
def findToken (s : Store) (answer : ObjectId → Token → m (Option α)) (v : Value) : m (Option α) :=
  s.searchBelow answer (s.size + 1) v

/-- The first token below a node, unless a failure is met before it. -/
def firstToken (s : Store) (v : Value) : m (Option (ObjectId × Token)) :=
  s.findToken (fun id t => return some (id, t)) v

end Store

end LosslessSyntax
