import LosslessSyntax.Tree.Shape

/-!
# Links and slots

Reading a node: its parent chain, the source file at its top, and the values of its slots.
-/

namespace LosslessSyntax.Store

variable {m : Type → Type} [Monad m] [Reports m]

/-! ## Upwards -/

/-- The parent of a node. -/
def parent? (s : Store) (id : ObjectId) : Option ObjectId := (s.cell? id).bind Cell.parent

/-- The parent chain above a node, up to a length. -/
def ancestorsWithin (s : Store) : Nat → ObjectId → List ObjectId
  | 0, _ => []
  | n + 1, id =>
    match s.parent? id with
    | some p => p :: ancestorsWithin s n p
    | none => []

/-- The nodes above a node, the nearest first. -/
def ancestors (s : Store) (id : ObjectId) : List ObjectId := s.ancestorsWithin s.size id

/-- The last node of the parent chain, the node itself if it has no parent. -/
def topmost (s : Store) (id : ObjectId) : ObjectId := (s.ancestors id).getLastD id

/-- The nearest node above that has the kind. -/
def ancestor? (s : Store) (v kind : Value) : Option ObjectId :=
  match v with
  | .object id => (s.ancestors id).find? fun a => (s.lookup a "kind").same kind
  | _ => none

/-- The source file that a node belongs to: the recorded one, or the top of the parent chain if that is one. -/
def root (s : Store) (v : Value) : m ObjectId :=
  match v with
  | .object id =>
    match (s.cell? id).bind Cell.root with
    | some r => return r
    | none =>
      let top := s.topmost id
      if s.isSourceFile top then return top else s.detached v
  | _ => s.detached v

/-- The source text of the file that a node belongs to. -/
def source (s : Store) (v : Value) : m Value := return s.lookup (← s.root v) "source"

/-- The end-of-file token of the file that a node belongs to. -/
def endOfFile (s : Store) (v : Value) : m Value := return s.lookup (← s.root v) endOfFileSlot

/-! ## Slots -/

/-- What is declared of a slot of a node and what stands in it. -/
def declaredSlot (s : Store) (v : Value) (slot : Text) : m (Value × Value) := do
  match ← Attempt.ofMisuse (s.arity? v slot) with
  | none => s.malformed (.unknownSlot slot) v
  | some arity => return (arity, ← Attempt.ofMisuse (s.slotContent v slot))

/-- The value of a slot for a single child. -/
def child (s : Store) (v : Value) (slot : Text) : m Value := do
  let (arity, content) ← s.declaredSlot v slot
  if arity = Layout.many || s.isList content then s.malformed (.listSlot slot) v else return content

/-- The list that stands in a slot for a list. -/
def list (s : Store) (v : Value) (slot : Text) : m Value := do
  let (arity, content) ← s.declaredSlot v slot
  if arity = Layout.one || !s.isList content then s.malformed (.singleSlot slot) v else return content

end LosslessSyntax.Store
