import LosslessSyntax.Store.Conversion

/-!
# Assignment

Setting members of objects from outside. Sealed objects refuse it by a TypeError, and so does an object that extends a
sealed one with a member of the same name. Under the name of the base an assignment changes what an object extends, since
`__proto__` is a setter of `Object.prototype`; the length of a list is set by any value that stands for a length; and the
stack text of an error is set on the error also through objects that extend it.
-/

namespace LosslessSyntax.Store

/-- A change of one object. -/
structure Change where
  id : ObjectId
  change : Cell → Cell

/-- Changes one object. -/
def apply (s : Store) (c : Change) : Store := s.modify c.id c.change

/-! ## Bases -/

/-- Makes an object extend another, or nothing. Values that are neither an object nor `null` change nothing, and no
object comes to extend itself. Operations have no place in the store, so that they are no bases here, although a
function can be a prototype. -/
def setBase (s : Store) (id : ObjectId) (value : Value) : Except Misuse Change :=
  let new? : Option (Option ObjectId) := match value with
    | .object b => some (some b)
    | .null => some none
    | _ => none
  match new?, s.cell? id with
  | some base, some c =>
    if c.base = base then .ok ⟨id, fun c => c⟩
    else if c.object.isSealed || base.any fun b => b = id || s.leadsTo b id then .error .isSealed
    else .ok ⟨id, fun c => { c with base }⟩
  | _, _ => .ok ⟨id, fun c => c⟩

/-! ## Members -/

/-- The items of a list with a new length, which cuts or extends it. -/
def resized (s : Store) (items : Sequence) (length : Value) : Except Misuse Sequence := do
  match (← s.toNumber length).toNat? with
  | some count => if count < Sequence.lengthBound then return items.resize count else throw .noLength
  | none => throw .noLength

/-- An object with a member set. An index beyond the end of a list makes it longer. -/
def setOn (s : Store) (o : Object) (name : Text) (value : Value) : Except Misuse Object :=
  match o with
  | .record m false => .ok (.record (m.set name value) false)
  | .list items m false =>
    match Members.index? name with
    | some i => .ok (.list (items.set i value) m false)
    | none =>
      if name = "length" then return .list (← s.resized items value) m false
      else .ok (.list items (m.set name value) false)
  | .error named hidden m =>
    .ok (if hidden.has name then .error named (hidden.set name value) m else .error named hidden (m.set name value))
  | .node n => .ok (.node { n with assigned := n.assigned.set name value })
  | .logger m => .ok (.logger (m.set name value))
  | _ => .error .isSealed

/-- What an assignment to an object changes. -/
inductive Target where
  | base
  | member (id : ObjectId)
  | nothing

/-- What an assignment under a name changes, by the first object of the chain that has such a member: the base of the
object that is asked, the stack text of an error, or, as a rule, a member of the object itself. A sealed object keeps
the member from being set, and the parent of a node is never set. -/
def target (s : Store) (id : ObjectId) (name : Text) : Target :=
  match s.seek id name with
  | none => .member id
  | some (holder, _) =>
    match s.object? holder with
    | some (.ground .record) => if name = baseName then .base else .member id
    | some (.ground .node) => if name = "parent" then .nothing else .member id
    | some (.error ..) => .member (if name = "stack" then holder else id)
    | some o => if o.isSealed then .nothing else .member id
    | none => .member id

/-- How setting a member of an object changes the store. -/
def assignment (s : Store) (id : ObjectId) (name : Text) (value : Value) : Except Misuse Change :=
  match s.target id name with
  | .base => s.setBase id value
  | .nothing => .error .isSealed
  | .member id =>
    match s.object? id with
    | none => .error .noMembers
    | some o => do
      let object ← s.setOn o name value
      return ⟨id, fun c => { c with object }⟩

/-- Sets a member of an object. -/
def assignTo (s : Store) (id : ObjectId) (name : Text) (value : Value) : Except Misuse Store :=
  (s.assignment id name value).map s.apply

/-- Sets a member of a value; only objects have members that can be set. The base of any other value that is not
missing stays as it is. -/
def assign (s : Store) (target : Value) (name : Text) (value : Value) : Except Misuse Store :=
  match target with
  | .object id => s.assignTo id name value
  | target => if name = baseName && !target.isMissing then .ok s else .error .isSealed

end LosslessSyntax.Store
