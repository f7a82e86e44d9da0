/-!
# Numbers

Offsets, lengths and kind ids are binary64 numbers. A finite number is kept as the rational it denotes, so the
only operation that can lose anything is `Number.ofRat`, which rounds a rational to the nearest binary64 value,
a tie going to the even significand. There is one zero.

Integers of magnitude at most `2 ^ 53` are their own rounding (`ofRat_intCast`): sums and differences that stay in
that range are exact (`add_ofInt`, `sub_ofInt`).
-/

namespace LosslessSyntax

/-- A binary64 number; `finite` holds the exact value. -/
inductive Number where
  | nan
  | infinity (negative : Bool)
  | finite (value : Rat)
  deriving DecidableEq

namespace Number

/-- Every integer of at most this magnitude, which is `2 ^ 53`, is a binary64 value. -/
def exactBound : Nat := 9007199254740992

/-! ## Rounding -/

/-- The integer nearest to `num / den`; a tie goes to the even one. -/
def roundDiv (num den : Nat) : Nat :=
  let quotient := num / den
  let twice := 2 * (num % den)
  if twice < den then quotient
  else if twice = den then quotient + quotient % 2
  else quotient + 1

/-- The exponent of the last place of the binary64 values around `num / den`: 52 below that of the leading bit,
and never below that of the least subnormal. -/
def lastPlace (num den : Nat) : Int :=
  let guess : Int := num.log2 - den.log2
  let leading : Int :=
    if den * Nat.pow 2 guess.toNat ≤ num * Nat.pow 2 (-guess).toNat then guess else guess - 1
  max (leading - 52) (-1074)

/-- The multiple of the last place nearest to `num / den`. -/
def roundMagnitude (num den : Nat) : Rat :=
  let place := lastPlace num den
  let below := Nat.pow 2 (-place).toNat
  let above := Nat.pow 2 place.toNat
  mkRat (roundDiv (num * below) (den * above) * above) below

/-- Rounds a rational to binary64. Values that round to `2 ^ 1024` or beyond are infinite. -/
def ofRat (q : Rat) : Number :=
  if q.den = 1 ∧ q.num.natAbs ≤ exactBound then .finite q
  else
    let magnitude := roundMagnitude q.num.natAbs q.den
    if Int.ofNat (Nat.pow 2 1024) ≤ magnitude.floor then .infinity (q < 0)
    else .finite (if q < 0 then -magnitude else magnitude)

def ofInt (i : Int) : Number := ofRat i

def ofNat (n : Nat) : Number := ofInt n

instance (n : Nat) : OfNat Number n := ⟨ofNat n⟩

/-! ## Arithmetic -/

def neg : Number → Number
  | .nan => .nan
  | .infinity negative => .infinity (!negative)
  | .finite q => .finite (-q)

/-- The rounded sum; opposite infinities have none. -/
def add : Number → Number → Number
  | .finite a, .finite b => ofRat (a + b)
  | .nan, _ => .nan
  | _, .nan => .nan
  | .infinity s, .infinity t => if s = t then .infinity s else .nan
  | .infinity s, .finite _ => .infinity s
  | .finite _, .infinity t => .infinity t

def sub (a b : Number) : Number := a.add b.neg

instance : Add Number := ⟨add⟩
instance : Sub Number := ⟨sub⟩

/-! ## Comparison -/

/-- Numeric `<`; nothing is below or above a NaN. -/
def lt : Number → Number → Bool
  | .finite a, .finite b => a < b
  | .nan, _ => false
  | _, .nan => false
  | .infinity s, .infinity t => s && !t
  | .infinity s, .finite _ => s
  | .finite _, .infinity t => !t

/-- Numeric `≤`, which a NaN satisfies on neither side. -/
def le (a b : Number) : Bool :=
  a.lt b || (a == b && a != .nan)

/-- The smaller number, or a NaN if either is one. -/
def least (a b : Number) : Number :=
  if a == .nan || b == .nan then .nan else if b.lt a then b else a

/-- The larger number, or a NaN if either is one. -/
def greatest (a b : Number) : Number :=
  if a == .nan || b == .nan then .nan else if a.lt b then b else a

/-! ## Integers -/

/-- The value of a finite number that is an integer. -/
def toInt? : Number → Option Int
  | .finite q => if q.den = 1 then some q.num else none
  | _ => none

/-- The value of a finite number that is a natural number. -/
def toNat? (n : Number) : Option Nat :=
  n.toInt?.bind Int.toNat?

/-- A finite number without its fraction. -/
def truncate (q : Rat) : Int :=
  if q < 0 then -(-q).floor else q.floor

/-! ## Exactness on integers -/

theorem ofRat_intCast {i : Int} (h : i.natAbs ≤ exactBound) : ofRat i = .finite i := by
  have hd : ((i : Rat)).den = 1 := rfl
  have hn : ((i : Rat)).num = i := rfl
  simp [ofRat, hd, hn, h]

theorem ofInt_eq {i : Int} (h : i.natAbs ≤ exactBound) : ofInt i = .finite i :=
  ofRat_intCast h

theorem add_ofInt {i j : Int} (hi : i.natAbs ≤ exactBound) (hj : j.natAbs ≤ exactBound) :
    ofInt i + ofInt j = ofInt (i + j) := by
  rw [ofInt_eq hi, ofInt_eq hj]
  show ofRat _ = ofRat _
  rw [Rat.intCast_add]

theorem sub_ofInt {i j : Int} (hi : i.natAbs ≤ exactBound) (hj : j.natAbs ≤ exactBound) :
    ofInt i - ofInt j = ofInt (i - j) := by
  rw [ofInt_eq hi, ofInt_eq hj]
  show ofRat (_ + -_) = ofRat _
  rw [Rat.intCast_sub, Rat.sub_eq_add_neg]

theorem toInt?_ofInt {i : Int} (h : i.natAbs ≤ exactBound) : (ofInt i).toInt? = some i := by
  rw [ofInt_eq h]
  rfl

end Number

end LosslessSyntax
