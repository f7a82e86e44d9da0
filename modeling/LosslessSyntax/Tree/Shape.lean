import LosslessSyntax.Fault
import LosslessSyntax.Store.Assign
import LosslessSyntax.Store.TokenFields

/-!
# Shapes of nodes

What the store knows of a node: its kind name, the layout of its slots, and what stands in each slot. A node has them
from the variant and the slots that it was made with, unless others were assigned to it from outside; any other object
that has the same members can be read in the same way.

A slot in which a list stands holds what that list holds at the time.
-/

namespace LosslessSyntax.Store

variable {m : Type → Type} [Monad m] [Reports m]

/-! ## Nodes and tokens -/

/-- The node of a number. -/
def node? (s : Store) (id : ObjectId) : Option Node := (s.object? id).bind Object.node?

/-- Whether an object is a node: it was made as one, or extends one. -/
def isNode (s : Store) (id : ObjectId) : Bool := s.isA .node id

def isSourceFile (s : Store) (id : ObjectId) : Bool := s.isA .file id

/-- Whether a value can stand in a slot. -/
def isElement (s : Store) : Value → Bool
  | .object id => s.isNode id || (s.token? id).isSome
  | _ => false

/-! ## Variants -/

/-- The variant that a node was made with, unless another was assigned. -/
def madeVariant? (s : Store) (v : Value) : Option Variant :=
  match v.object?.bind s.node? with
  | some n => if n.assigned.has "variant" then none else some n.variant
  | none => none

/-- The name of the kind of a node. -/
def kindName (s : Store) (v : Value) : Except Misuse Value :=
  match s.madeVariant? v with
  | some w => .ok (.text w.name)
  | none => do s.member "name" (← s.member "variant" v)

/-! ## Layouts

The slots of a variant that a grammar made are known. Those of any other object are listed once, when they are first
asked for, and stay as they were listed; what is declared of a slot is read anew each time. -/

/-- The slot names of a variant. -/
def slotNamesOf (s : Store) (variant : Value) : m (List Text) :=
  match variant with
  | .object id =>
    match s.cell? id with
    | none => throw (.misuse .noMembers)
    | some c =>
      match c.object, (s.kept id).slotNames with
      | .variant w, _ => return w.slotNames
      | _, some names => return names
      | _, none => throw (.unlisted id)
  | _ => throw (.misuse .noMembers)

/-- The slot names of a node, in source order. -/
def slotNames (s : Store) (v : Value) : m (List Text) :=
  match s.madeVariant? v with
  | some w => return w.slotNames
  | none => do s.slotNamesOf (← Attempt.ofMisuse (s.member "variant" v))

/-- What a layout declares of a slot, if it does. -/
def arityIn? (s : Store) (layout : Value) (slot : Text) : Except Misuse (Option Value) :=
  if layout.isMissing then .error .noMembers
  else
    match s.own? layout slot with
    | some .undefined | none => .ok none
    | some arity => .ok (some arity)

/-- What is declared of a slot of a node, if anything is. -/
def arity? (s : Store) (v : Value) (slot : Text) : Except Misuse (Option Value) :=
  match s.madeVariant? v with
  | some w => .ok (w.layout.arity? slot)
  | none => do s.arityIn? (← s.member "layout" (← s.member "variant" v)) slot

/-! ## Slots -/

/-- What stands in a slot of a node; nothing is `null`. -/
def slotContent (s : Store) (v : Value) (slot : Text) : Except Misuse Value := do
  let content ← s.member slot (← s.member "children" v)
  return if content.isMissing then .null else content

/-- The slots of a node with what stands in them, in source order. -/
def contents (s : Store) (v : Value) : m (Members Value) := do
  (← s.slotNames v).mapM fun slot => return (slot, ← Attempt.ofMisuse (s.slotContent v slot))

/-- What is met in a slot when it is gone through, given what stands in it. A list can lack what it takes to go through
it. -/
def iterated (s : Store) (content : Value) : Except Misuse Sequence :=
  match s.items? content with
  | some items => if s.isIterable content then .ok items else .error .noOperation
  | none => .ok (.ofList (if content.isMissing then [] else [content]))

/-! ## Faults -/

/-- The fault of a node. -/
def malformed {α : Type} (s : Store) (cause : Malformation) (v : Value) : m α := do
  let kind ← Attempt.ofMisuse (s.kindName v)
  throw (← TreeFault.build (.malformed cause kind))

/-- The fault of a node that belongs to no source file. -/
def detached {α : Type} (s : Store) (v : Value) : m α := do
  let kind ← Attempt.ofMisuse (s.kindName v)
  throw (← TreeFault.build (.detached kind))

/-! ## Replacing slots -/

/-- Gives a node new slots: those it has, with the members that a value lists set over them. -/
def overlaySlots (s : Store) (v given : Value) : Except Misuse Store := do
  let own := s.listed (← s.member "children" v)
  let (slots, s) := s.add (.ofMembers (own.merge (s.listed given)))
  s.assign v "children" (.object slots)

end LosslessSyntax.Store
