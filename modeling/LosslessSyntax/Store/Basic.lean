import LosslessSyntax.Store.Object

/-!
# The store

The store gives every object a number. Beside what an object holds it keeps what the object extends, which is its base,
and the links of trees: the parent of a node, the source file at the top of its tree, and whether a token belongs to a
node.

The base of an object is its prototype, and the name of the base is `__proto__`. An object that does not have a member
looks for it in the object that it extends, and so on along its chain of prototypes. To ask a missing value for a member
is a TypeError.
-/

namespace LosslessSyntax

/-- A text in which positions are counted, and whether its lines have been found. -/
structure Document where
  content : Value
  counted : Bool := false
  deriving DecidableEq

/-- The tags of a logger, which are the members of a record that nothing else knows, and what that record extends. -/
structure Tags where
  members : Members Value := []
  base : Option ObjectId := some Ground.record.id
  deriving DecidableEq

/-- What is kept beside an object: the slot names that it gives as a variant and the document in which positions in it
are counted, both once they have been asked for, and the tags of a logger. -/
structure Kept where
  slotNames : Option (List Text) := none
  document : Option Document := none
  tags : Tags := {}
  deriving DecidableEq

/-- An object of the store with what it extends and its links. -/
structure Cell where
  object : Object
  base : Option ObjectId
  parent : Option ObjectId := none
  root : Option ObjectId := none
  owned : Bool := false
  deriving DecidableEq

/-- The cell of a new object, which extends the ground of its kind. -/
def Cell.ofObject (o : Object) : Cell := { object := o, base := o.base? }

/-- A store. Nothing is kept beside objects that are not there. -/
structure Store where
  cells : Array Cell
  kept : ObjectId → Kept := fun _ => {}
  kept_new : ∀ id, cells.size ≤ id → kept id = {} := by intros; rfl

namespace Store

/-- A store of nothing but the grounds. -/
def empty : Store := { cells := (Ground.all.map fun g => Cell.ofObject (.ground g)).toArray }

def size (s : Store) : Nat := s.cells.size

def cell? (s : Store) (id : ObjectId) : Option Cell := s.cells[id]?

def object? (s : Store) (id : ObjectId) : Option Object := (s.cell? id).map Cell.object

/-- What an object extends. -/
def base? (s : Store) (id : ObjectId) : Option ObjectId := (s.cell? id).bind Cell.base

/-- A store with more objects, or others in the place of some. -/
def withCells (s : Store) (cells : Array Cell) (h : s.cells.size ≤ cells.size) : Store :=
  { s with cells, kept_new := fun id hid => s.kept_new id (Nat.le_trans h hid) }

def modify (s : Store) (id : ObjectId) (change : Cell → Cell) : Store :=
  s.withCells (s.cells.modify id change) (Nat.le_of_eq Array.size_modify.symm)

/-- Gives an object the next number. -/
def add (s : Store) (o : Object) : ObjectId × Store :=
  (s.cells.size, s.withCells (s.cells.push (.ofObject o)) (by rw [Array.size_push]; exact Nat.le_succ _))

/-- Gives objects the next numbers, in order. -/
def addAll (s : Store) (os : List Object) : Store :=
  s.withCells (s.cells ++ (os.map Cell.ofObject).toArray) (by rw [Array.size_append]; exact Nat.le_add_right ..)

/-- A store of the first objects only. -/
def take (s : Store) (count : Nat) : Store :=
  let old := s.kept
  { cells := s.cells.take count
    kept := fun id => if id < count then old id else {}
    kept_new := by
      intro id hid
      rw [Array.take, Array.size_extract] at hid
      by_cases h : id < count
      · rw [if_pos h]
        exact s.kept_new id (by omega)
      · rw [if_neg h] }

/-- Changes what is kept beside an object. -/
def keep (s : Store) (id : ObjectId) (change : Kept → Kept) : Store :=
  let old := s.kept
  let isThere := decide (id < s.cells.size)
  { s with
    kept := fun i => if i = id && isThere then change (old i) else old i
    kept_new := by
      intro i hi
      have hno : ¬ (i = id && isThere) = true := by
        simp only [isThere, Bool.and_eq_true, decide_eq_true_eq, not_and]
        rintro rfl
        exact Nat.not_lt.mpr hi
      rw [if_neg hno]
      exact s.kept_new i hi }

/-! ## Chains -/

/-- The objects that an object extends, the nearest first, up to a length. -/
def chainFrom (s : Store) : Nat → ObjectId → List ObjectId
  | 0, _ => []
  | steps + 1, id =>
    match s.base? id with
    | some b => b :: chainFrom s steps b
    | none => []

/-- The objects that an object extends, the nearest first. -/
def chain (s : Store) (id : ObjectId) : List ObjectId := s.chainFrom s.size id

/-- Whether the chain of an object leads to another one, up to a length. -/
def leadsFrom (s : Store) (target : ObjectId) : Nat → ObjectId → Bool
  | 0, _ => false
  | steps + 1, id =>
    match s.base? id with
    | some b => b == target || leadsFrom s target steps b
    | none => false

/-- Whether an object extends another one, directly or not. -/
def leadsTo (s : Store) (id target : ObjectId) : Bool := s.leadsFrom target s.size id

/-- Whether an object is of the kind of a ground, which it extends. -/
def isA (s : Store) (g : Ground) (id : ObjectId) : Bool := s.leadsTo id g.id

/-- The object by which an object was first made to extend a ground: the last one of its chain before the grounds. -/
def maker? (s : Store) (id : ObjectId) : Option Object :=
  ((id :: s.chain id).filter fun i => (Ground.ofId? i).isNone).getLast?.bind s.object?

/-! ## Members -/

/-- Looks for a member along the chain of an object, up to a length. -/
def seekFrom (s : Store) (name : Text) : Nat → ObjectId → Option (ObjectId × Value)
  | 0, _ => none
  | steps + 1, id =>
    match s.cell? id with
    | none => none
    | some c =>
      match c.object.own? name with
      | some value => some (id, value)
      | none => c.base.bind (seekFrom s name steps)

/-- The first object of a chain that has a member, with the member. -/
def seek (s : Store) (id : ObjectId) (name : Text) : Option (ObjectId × Value) := s.seekFrom name (s.size + 1) id

/-- What a member that was found in a ground gives for the object that was asked: its own base under the name of the
base, and the own parent of a node. -/
def groundMember (s : Store) (g : Ground) (id : ObjectId) (name : Text) (value : Value) : Value :=
  if g = .record && name = baseName then (s.base? id).elim .null .object
  else if g = .node && name = "parent" then ((s.cell? id).bind Cell.parent).elim .null .object
  else value

/-- The member of an object. -/
def lookup (s : Store) (id : ObjectId) (name : Text) : Value :=
  match s.seek id name with
  | none => .undefined
  | some (holder, value) =>
    match Ground.ofId? holder with
    | some g => s.groundMember g id name value
    | none => value

/-- The object of a chain that has an operation under a name. -/
def operationHolder? (s : Store) (v : Value) (name : Text) : Option Object :=
  match v with
  | .object id =>
    match s.seek id name with
    | some (holder, .operation _) => s.object? holder
    | _ => none
  | _ => none

/-- Reads a member of a value; there is nothing to read in missing values. -/
def member (s : Store) (name : Text) : Value → Except Misuse Value
  | .undefined | .null => .error .noMembers
  | .object id => .ok (s.lookup id name)
  | .text t =>
    .ok <|
      if name = "length" then .ofNat t.length
      else ((Members.index? name).bind (t[·]?)).elim (undeclaredInText name) fun u => .text [u]
  | .number _ => .ok (undeclaredInNumber name)
  | .operation own =>
    .ok <|
      if name = "name" then .text own
      else if name = "length" then .ofNat (operationLength own)
      else undeclared name
  | .bool _ | .bigint _ => .ok (undeclared name)

/-- A member of a value's own. -/
def own? (s : Store) (v : Value) (name : Text) : Option Value :=
  match v with
  | .object id => (s.object? id).bind (·.own? name)
  | .text t =>
    if name = "length" then some (.ofNat t.length) else ((Members.index? name).bind (t[·]?)).map fun u => .text [u]
  | _ => none

/-- The members that a value lists, with their values. -/
def listed (s : Store) : Value → Members Value
  | .object id => ((s.object? id).map Object.listed).getD []
  | .text t => (Members.ofItems t).map fun (name, u) => (name, .text [u])
  | _ => []

/-- The names of the members that a value lists. -/
def names (s : Store) (v : Value) : List Text := (s.listed v).names

/-- The names that the objects of a chain list, without those in `seen`. A name that an object has without listing it is
not listed further on either. -/
def chainNamesFrom (s : Store) : List Text → List ObjectId → List Text
  | _, [] => []
  | seen, id :: rest =>
    match s.object? id with
    | none => []
    | some o =>
      o.listed.names.filter (!seen.contains ·) ++ chainNamesFrom s (o.hidden.names ++ o.listed.names ++ seen) rest

/-- The names that a value and the objects that it extends list. -/
def chainNames (s : Store) : Value → List Text
  | .object id => s.chainNamesFrom [] (id :: s.chain id)
  | v => s.names v

/-! ## Lists -/

def isList (s : Store) (v : Value) : Bool := ((v.object?.bind s.object?).bind Object.items?).isSome

/-- The member of an index, if some object of the chain has it. -/
def element? (s : Store) (id : ObjectId) (index : Nat) : Option Value := (s.seek id (Text.ofNat index)).map (·.2)

/-- The members of an object and of those that it extends at the places below a length. -/
def elementsBelow (s : Store) (id : ObjectId) (length : Nat) : Sequence :=
  let places := ((s.chainNames (.object id)).filterMap Members.index?).filter (· < length)
  places.foldl (fun items place => (s.element? id place).elim items (items.set place)) (.gaps length)

/-- The items of a list. One that was never set is looked for in what the list extends, and missing if it is not there
either. -/
def items? (s : Store) (v : Value) : Option Sequence :=
  match v with
  | .object id =>
    match s.cell? id with
    | none => none
    | some c =>
      if c.base = c.object.base? then c.object.items?
      else c.object.items?.map fun items => s.elementsBelow id items.length
  | _ => none

end Store

end LosslessSyntax
