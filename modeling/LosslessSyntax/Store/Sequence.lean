import LosslessSyntax.Store.Data

/-!
# Values read as sequences

Values that are gone through or cut like lists. A list has its functions `map` and `slice` from the ground of lists, and
so has every object that extends one; to ask an object whose chain does not lead there is a TypeError.

A new list is made where one is mapped or cut. It cannot be longer than lists are, which is a RangeError, and a list that
declares how that is done, by a constructor that is none, cannot be mapped or cut.
-/

namespace LosslessSyntax.Store

/-- Whether a value can be gone through from its start to its end, as lists can. -/
def isIterable (s : Store) (v : Value) : Bool := v.object?.any fun id => id = Ground.list.id || s.isA .list id

/-- Checks that as many parts of an object as given can be put into a new list. -/
def checkRenewal (s : Store) (id : ObjectId) (count : Nat) : Except Misuse Unit :=
  let declared := s.isList (.object id) && match s.lookup id "constructor" with
    | .undefined | .operation _ | .object _ => false
    | .null | .bool _ | .number _ | .bigint _ | .text _ => true
  if declared then .error .noOperation
  else if count < Sequence.lengthBound then .ok ()
  else .error .noLength

/-- The object that does what is asked of a value, as every list can. -/
def listFor (s : Store) (operation : Text) (v : Value) : Except Misuse ObjectId :=
  match v with
  | .undefined | .null => .error .noMembers
  | .object id => if (s.lookup id operation).isOperation then .ok id else .error .noOperation
  | _ => .error .noOperation

/-- The elements that are met when a value is mapped; gaps are skipped. -/
def mapped (s : Store) (v : Value) : Except Misuse Sequence := do
  let id ← s.listFor "map" v
  s.checkRenewal id (← s.length id)
  s.elements id

/-! ## Cutting -/

/-- The part of a text or a list between two offsets, up to its end if the second is missing. -/
def part (s : Store) (whole first last : Value) : Except Misuse Data := do
  match whole with
  | .text t =>
    let low ← s.toNumber first
    let high ← if last = .undefined then pure (Number.ofNat t.length) else s.toNumber last
    return .ofText (t.slice low high)
  | whole =>
    let id ← s.listFor "slice" whole
    let length ← s.length id
    let low := Text.index length (← s.toNumber first)
    let high ← if last = .undefined then pure length else Text.index length <$> s.toNumber last
    s.checkRenewal id (high - low)
    return .list ((List.range (high - low)).map fun i => .leaf ((s.element? id (low + i)).getD .undefined))

end LosslessSyntax.Store
