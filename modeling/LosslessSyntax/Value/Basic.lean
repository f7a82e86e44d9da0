import LosslessSyntax.Number.Decimal
import LosslessSyntax.Text.Basic

/-!
# Values

What a slot, a member, a tag or a setting can hold. A value is plain, or it names an object of the store; two objects
are the same only if they have the same number, whatever they hold. An operation is a function.

A `Misuse` is what comes of asking a value for something it does not have: the TypeError or, where
`Misuse.isOutOfRange`, the RangeError of the machine.
-/

namespace LosslessSyntax

/-- The number of an object in the store. -/
abbrev ObjectId := Nat

/-- A value. An `operation`, which is a function, can only be called and has nothing to show but its name and its
length; objects answer to many without declaring them. -/
inductive Value where
  | undefined
  | null
  | bool (value : Bool)
  | number (value : Number)
  | bigint (value : Int)
  | text (value : Text)
  | object (id : ObjectId)
  | operation (name : Text)
  deriving DecidableEq

instance : Inhabited Value := ⟨.undefined⟩

instance : Coe Text Value := ⟨.text⟩

/-- A value was asked for something it does not have. -/
inductive Misuse where
  | noMembers
  | noText
  | noNumber
  | noInstant
  | noLength
  | tooLong
  | endless
  | circular
  | isSealed
  | noOperation
  deriving DecidableEq

/-- Whether a value was of the right sort but too large, or what was asked for has no end. -/
def Misuse.isOutOfRange : Misuse → Bool
  | .noInstant | .noLength | .tooLong | .endless => true
  | .noMembers | .noText | .noNumber | .circular | .isSealed | .noOperation => false

namespace Value

def ofNat (n : Nat) : Value := .number (.ofNat n)

/-- Whether nothing is there. -/
def isMissing : Value → Bool
  | .undefined | .null => true
  | _ => false

/-- Zero, NaN, empty text and missing values are false, all else is true. -/
def truthy : Value → Bool
  | .undefined | .null => false
  | .bool b => b
  | .number n => n != 0 && n != .nan
  | .bigint i => i != 0
  | .text t => !t.isEmpty
  | .object _ | .operation _ => true

/-- Whether two values are the same one. A NaN is not the same as anything. -/
def same (a b : Value) : Bool := a == b && a != .number .nan

/-- Whether a value can be called. -/
def isOperation : Value → Bool
  | .operation _ => true
  | _ => false

/-- The object that a value names. -/
def object? : Value → Option ObjectId
  | .object id => some id
  | _ => none

end Value

end LosslessSyntax
