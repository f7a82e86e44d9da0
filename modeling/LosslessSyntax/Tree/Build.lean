import LosslessSyntax.Tree.Shape

/-!
# Building

Trees are built from the bottom up. `Store.create` makes a node of children that exist already, and
`Store.createSourceFile` makes the root of a tree. Every child is checked before anything is linked, so a refused node
leaves no links behind.

The checks, in order: the input names only declared slots; each slot is given what its arity asks for; and no child is
given twice, is a source file, or belongs to another node.

The slots are put one by one into a record, which is then sealed. A slot with the name of the base makes that record
extend what is given there; such a slot can keep later ones from being set, and what is read from it later can be
something else than what was given. A value that is found there and is no object cannot be linked, and building fails
with the links before it made.

`Store.addFile` is the first half of making a root and `Store.recordRoot` the second. A root can also be made of
anything that has the members of a grammar.

Each step is given in any monad in which faults can be built, with a name that ends in `M`; without it, the name is that
of the step where nobody listens.
-/

namespace LosslessSyntax

/-! ## Input -/

/-- What is given for a slot: a value, or a list that is no object. -/
inductive SlotValue where
  | one (value : Value)
  | many (values : List Value)
  deriving DecidableEq

/-- What a node is made of: the names that are given, and what is read for any name. -/
structure Input where
  names : List Text
  read : Text → SlotValue

namespace Input

/-- Members given one by one. -/
def ofMembers (m : Members SlotValue) : Input :=
  ⟨m.names, fun slot => (m.get? slot).getD (.one (undeclared slot))⟩

/-- The members of a value; a missing value has none to read. -/
def ofValue (s : Store) (v : Value) : Except Misuse Input :=
  if v.isMissing then .error .noMembers
  else .ok ⟨s.names v, fun slot => .one ((s.member slot v).toOption.getD .undefined)⟩

end Input

/-- What a node is built against: its kind name, its slots with what is declared of them, and which names count as
slots of an input. -/
structure Plan where
  kind : Value
  layout : Layout
  declares : Text → Bool

def Variant.plan (v : Variant) : Plan := ⟨.text v.name, v.layout, fun slot => (v.layout.arity? slot).isSome⟩

/-! ## Work on a store -/

/-- Work on a store, which may fail after a part of it is done. Besides, something is done in `n`. -/
abbrev BuildingT (n : Type → Type) := ExceptT Failure (StateT Store n)

/-- Work on a store and nothing besides. -/
abbrev Building := ExceptT Failure (StateM Store)

namespace BuildingT

variable {n m : Type → Type} [Monad n] [Tries n m] {α : Type}

/-- Gives an object the next number. -/
def add (o : Object) : BuildingT n ObjectId := modifyGet fun s => s.add o

/-- Takes over what is read from the store. -/
def read (work : Store → m α) : BuildingT n α := fun s => do return (← Tries.attempt (work s), s)

/-- Changes the store. -/
def update (work : Store → Store) : BuildingT n Unit := modify work

/-- Changes one object, unless that is not possible. -/
def change (work : Store → m Store.Change) : BuildingT n Unit := fun s => do
  match ← Tries.attempt (work s) with
  | .ok c => return (.ok (), s.apply c)
  | .error failure => return (.error failure, s)

/-- Forgets the objects that were made by work that fails. Nothing leads to them, unless one that was there before has
changed. -/
def forgetting (work : BuildingT n α) : BuildingT n α := fun s => do
  match ← work s with
  | (.ok a, t) => return (.ok a, t)
  | (.error failure, t) => return (.error failure, if t.cells.take s.size = s.cells then s else t)

end BuildingT

namespace Store

variable {n m : Type → Type} [Monad n] [Monad m] [Tries n m] [Reports m]

/-! ## Slots -/

/-- Refuses a node for a cause. -/
def refuse {α : Type} (cause : Malformation) (kind : Value) : m α := do
  throw (← TreeFault.build (.malformed cause kind))

/-- The first name of the input that is no slot. -/
def unknownSlot? (p : Plan) (input : Input) : Option Text := input.names.find? (!p.declares ·)

/-- Checks values for a slot that holds a list. -/
def checkEntries (s : Store) (kind : Value) (slot : Text) (values : List Value) : m SlotValue :=
  if values.all s.isElement then return .many values else refuse (.foreignEntry slot) kind

/-- Checks what is given for a slot that holds a list; an absent list is empty. -/
def checkMany (s : Store) (kind : Value) (slot : Text) : SlotValue → m SlotValue
  | .many values => s.checkEntries kind slot values
  | .one v =>
    match s.items? v with
    | none => if v.isMissing then return .many [] else refuse (.listExpected slot) kind
    | some items =>
      if !s.isIterable v then throw (.misuse .noOperation)
      else if items.isFull then s.checkEntries kind slot items.values
      else refuse (.foreignEntry slot) kind

/-- Checks what is given for a slot that holds a single child. -/
def checkOne (s : Store) (kind : Value) (slot : Text) : SlotValue → m SlotValue
  | .many _ => refuse (.singleExpected slot) kind
  | .one v =>
    if v.isMissing then return .one .null
    else if s.isList v then refuse (.singleExpected slot) kind
    else if s.isElement v then return .one v
    else refuse (.foreignValue slot) kind

/-- Checks what is given for a slot. -/
def checkSlot (s : Store) (kind : Value) (slot : Text) (arity : Value) (given : SlotValue) : m SlotValue :=
  if arity = Layout.many then s.checkMany kind slot given else s.checkOne kind slot given

/-- The value of checked input; a list becomes a sealed object of its own. -/
def placeM : SlotValue → BuildingT n Value
  | .one v => return v
  | .many values => return .object (← BuildingT.add (.list (.ofList values) [] true))

/-- Puts what is given for a slot into the record of slots. -/
def fillSlotM (p : Plan) (input : Input) (record : ObjectId) (slot : Text) (arity : Value) : BuildingT n Unit := do
  let checked ← BuildingT.read fun s => s.checkSlot p.kind slot arity (input.read slot)
  let value ← placeM checked
  BuildingT.change fun s => Attempt.ofMisuse (s.assignment record slot value)

/-- An object that refuses to be changed from now on. -/
def sealRecord : Object → Object
  | .record m _ => .record m true
  | o => o

/-- The record of the slots of a new node. -/
def makeSlotsM (p : Plan) (input : Input) : BuildingT n ObjectId := do
  match unknownSlot? p input with
  | some name => BuildingT.read fun _ => refuse (.unknownSlot name) p.kind
  | none =>
    let record ← BuildingT.add (.ofMembers [])
    p.layout.forM fun (slot, arity) => fillSlotM p input record slot arity
    BuildingT.update fun s => s.modify record fun c => { c with object := sealRecord c.object }
    return record

/-! ## Children -/

/-- Checks that a child can be attached to a node of the kind `kind`. -/
def checkChild (s : Store) (kind : Value) (slot : Text) (child : Value) : m Unit :=
  match child.object?.bind s.cell?, child with
  | some c, .object id =>
    if s.isNode id then
      if s.isSourceFile id then refuse (.nestedSourceFile slot) kind
      else if c.parent.isSome then s.malformed (.attachedChild slot) child
      else return ()
    else if c.owned then refuse (.ownedToken slot) kind
    else return ()
  | _, _ => return ()

/-- Checks the children of one slot in order, given those seen before, the last one first. -/
def checkSlotChildren (s : Store) (kind : Value) (slot : Text) : List Value → List Value → m (List Value)
  | seen, [] => return seen
  | seen, child :: rest =>
    if child ∈ seen then refuse (.repeatedChild slot) kind
    else do
      s.checkChild kind slot child
      checkSlotChildren s kind slot (child :: seen) rest

/-- The children in a record of slots, in source order, if they can all be attached to a node. A gap in a list is met as
a missing value, so no second gap is passed over. -/
def attachable (s : Store) (p : Plan) (slots : ObjectId) : m (List Value) := do
  let seen ← p.layout.names.foldlM (fun seen slot => do
    let children ← Attempt.ofMisuse (s.iterated (s.lookup slots slot))
    s.checkSlotChildren p.kind slot seen (children.visited 2)) []
  return seen.reverse

/-- How linking a child to its new parent changes it: a node knows its parent, a token only that it has one. Only
objects can be linked. -/
def link (s : Store) (parent : ObjectId) : Value → m Change
  | .object id =>
    return ⟨id, if s.isNode id then fun c => { c with parent := some parent } else fun c => { c with owned := true }⟩
  | _ => throw (.misuse .noMembers)

/-- Adds a node and links the children in its slots. -/
def attachM (p : Plan) (node : Node) : BuildingT n ObjectId := do
  let children ← BuildingT.read fun s => s.attachable p node.slots
  let id ← BuildingT.add (.node node)
  children.forM fun child => BuildingT.change fun s => s.link id child
  return id

/-! ## Nodes -/

/-- Makes a node of a variant other than the source file's. -/
def createM (v : Variant) (input : Input) : BuildingT n ObjectId :=
  if v.isSourceFile then BuildingT.read fun _ => refuse .sourceFileVariant (.text v.name)
  else BuildingT.forgetting do
    let slots ← makeSlotsM v.plan input
    attachM v.plan { variant := v, slots }

/-! ## Source files -/

/-- The end-of-file token in a record of slots: one of the right kind in the slot for it. -/
def endOfFileToken? (s : Store) (kind : Value) (slots : ObjectId) : Option ObjectId :=
  match s.lookup slots endOfFileSlot with
  | .object id => if (s.token? id).any (·.kind.same kind) then some id else none
  | _ => none

/-- Makes a source file of a plan, without recording it for the nodes below. -/
def addFileByM (p : Plan) (variant : Variant) (assigned : Members Value) (endOfFileKind : Value) (source : Source)
    (input : Input) : BuildingT n ObjectId :=
  BuildingT.forgetting do
    let slots ← makeSlotsM p input
    let endOfFile ← BuildingT.read fun s =>
      match s.endOfFileToken? endOfFileKind slots with
      | some id => return id
      | none => refuse .noEndOfFileToken p.kind
    attachM p { variant, slots, file := some { source, endOfFile }, assigned }

/-- Makes a source file of a variant, without recording it for the nodes below. -/
def addFileM (v : Variant) (endOfFileKind : Value) (source : Source) (input : Input) : BuildingT n ObjectId :=
  addFileByM v.plan v [] endOfFileKind source input

/-- The nodes in the slots of a node. -/
def childNodes (s : Store) (id : ObjectId) : Attempt (List ObjectId) := do
  let met ← (← s.contents (.object id)).mapM fun (_, content) => Attempt.ofMisuse (s.iterated content)
  return (met.flatMap Sequence.values |>.filterMap Value.object?).filter s.isNode

/-- A node and the nodes below it, by its slots, down to a depth, later children first; up to one whose slots cannot be
read, if there is one. -/
def nodesFrom (s : Store) : Nat → ObjectId → List ObjectId × Option Failure
  | 0, _ => ([], some (.misuse .endless))
  | depth + 1, id =>
    match s.childNodes id with
    | .error f => ([id], some f)
    | .ok children =>
      children.foldr (fun child (before, failure) =>
        match failure with
        | some f => (before, some f)
        | none =>
          let (below, failure) := nodesFrom s depth child
          (before ++ below, failure)) ([id], none)

/-- A node and all nodes below it. A chain of distinct nodes is no longer than the store. -/
def nodesOf (s : Store) (id : ObjectId) : List ObjectId × Option Failure := s.nodesFrom (s.size + 1) id

/-- Records the source file at the top of a tree for some of its nodes. -/
def recordRoot (s : Store) (root : ObjectId) (nodes : List ObjectId) : Store :=
  nodes.foldl (fun s id => s.modify id fun c => { c with root := some root }) s

/-- Records a source file for all nodes below it, or for those that are reached before one cannot be read. -/
def recordRootsM (root : ObjectId) : BuildingT n Unit := fun s =>
  let (nodes, failure) := s.nodesOf root
  return (failure.elim (.ok ()) .error, s.recordRoot root nodes)

/-- Makes the source file of a text and records it for all nodes below. -/
def createSourceFileM (g : Grammar) (source : Source) (input : Input) : BuildingT n ObjectId := do
  let root ← addFileM g.sourceFile (.ofNat g.endOfFileKind) source input
  recordRootsM root
  return root

/-! ## Source files of other plans -/

/-- The plan that a value gives in place of a variant, for an input. A layout is not looked at unless there are slots
to read from it. -/
def planFor (s : Store) (variant : Value) (input : Input) : m Plan := do
  let kind ← Attempt.ofMisuse (s.member "name" variant)
  let layout ← Attempt.ofMisuse (s.member "layout" variant)
  let declares (slot : Text) : Bool := (s.arityIn? layout slot).toOption.any Option.isSome
  if layout.isMissing && !input.names.isEmpty then throw (.misuse .noMembers)
  let p : Plan := ⟨kind, [], declares⟩
  match unknownSlot? p input with
  | some _ => return p
  | none =>
    let slots ← (← s.slotNamesOf variant).mapM fun slot => return (slot, ← Attempt.ofMisuse (s.member slot layout))
    return { p with layout := slots }

/-- Makes a source file of a variant and an end-of-file kind that no grammar gives. -/
def addOtherFileM (variant endOfFileKind : Value) (source : Source) (input : Input) : BuildingT n ObjectId := do
  let p ← BuildingT.read fun s => s.planFor variant input
  let kind ← BuildingT.read fun s => Attempt.ofMisuse (s.member "kind" variant)
  addFileByM p .blank [("variant", variant), ("kind", kind)] endOfFileKind source input

/-! ## Building where nobody listens -/

/-- The value of checked input. -/
def place (checked : SlotValue) : Building Value := placeM checked

/-- Puts what is given for a slot into the record of slots. -/
def fillSlot (p : Plan) (input : Input) (record : ObjectId) (slot : Text) (arity : Value) : Building Unit :=
  fillSlotM p input record slot arity

/-- The record of the slots of a new node. -/
def makeSlots (p : Plan) (input : Input) : Building ObjectId := makeSlotsM p input

/-- Adds a node and links the children in its slots. -/
def attach (p : Plan) (node : Node) : Building ObjectId := attachM p node

/-- Makes a node of a variant other than the source file's. -/
def create (v : Variant) (input : Input) : Building ObjectId := createM v input

/-- Makes a source file of a plan, without recording it for the nodes below. -/
def addFileBy (p : Plan) (variant : Variant) (assigned : Members Value) (endOfFileKind : Value) (source : Source)
    (input : Input) : Building ObjectId :=
  addFileByM p variant assigned endOfFileKind source input

/-- Makes a source file of a variant, without recording it for the nodes below. -/
def addFile (v : Variant) (endOfFileKind : Value) (source : Source) (input : Input) : Building ObjectId :=
  addFileM v endOfFileKind source input

/-- Records a source file for all nodes below it, or for those that are reached before one cannot be read. -/
def recordRoots (root : ObjectId) : Building Unit := recordRootsM root

/-- Makes the source file of a text and records it for all nodes below. -/
def createSourceFile (g : Grammar) (source : Source) (input : Input) : Building ObjectId :=
  createSourceFileM g source input

/-- Makes a source file of a variant and an end-of-file kind that no grammar gives. -/
def addOtherFile (variant endOfFileKind : Value) (source : Source) (input : Input) : Building ObjectId :=
  addOtherFileM variant endOfFileKind source input

end Store

end LosslessSyntax
