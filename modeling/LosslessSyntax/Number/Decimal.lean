import LosslessSyntax.Number.Basic

/-!
# Decimal text of numbers

`Number.text` writes the fewest significant digits that read back as the same number, the nearest such digits if
there are several. Magnitudes from `1e-6` up to, but excluding, `1e21` are written positionally; all others with an
exponent that carries its sign. `Number.ofScientific` and `Number.parse?` read decimal text, rounding to nearest.
-/

namespace LosslessSyntax.Number

/-! ## Reading -/

/-- `mantissa * 10 ^ exponent` as a rational. -/
def scaled (mantissa : Int) (exponent : Int) : Rat :=
  mkRat (mantissa * Nat.pow 10 exponent.toNat) (Nat.pow 10 (-exponent).toNat)

/-- The number nearest to `mantissa * 10 ^ exponent`. Exponents that decide the outcome by themselves are not
expanded. -/
def ofScientific (mantissa : Int) (exponent : Int) : Number :=
  let size : Int := (Nat.toDigits 10 mantissa.natAbs).length
  if mantissa = 0 then 0
  else if 400 < exponent + size then .infinity (mantissa < 0)
  else if exponent + size < -400 then 0
  else ofRat (scaled mantissa exponent)

/-- Reads decimal digits from the front: their value, how many there are, and the rest. -/
def takeDigits : List Char → Nat × Nat × List Char
  | [] => (0, 0, [])
  | c :: rest =>
    if c.isDigit then
      let digits := (c :: rest).takeWhile Char.isDigit
      (Nat.ofDigitChars 10 digits 0, digits.length, (c :: rest).dropWhile Char.isDigit)
    else (0, 0, c :: rest)

/-- Reads the exponent part of a decimal numeral, which may be missing. -/
def takeExponent : List Char → Option (Int × List Char)
  | c :: rest =>
    if c = 'e' ∨ c = 'E' then
      let (negative, unsigned) := match rest with
        | '-' :: r => (true, r)
        | '+' :: r => (false, r)
        | r => (false, r)
      match takeDigits unsigned with
      | (_, 0, _) => none
      | (value, _, after) => some (if negative then -value else value, after)
    else some (0, c :: rest)
  | [] => some (0, [])

/-- Reads an unsigned decimal numeral that ends where the text ends. -/
def parseUnsigned? (negative : Bool) (cs : List Char) : Option Number :=
  let (whole, wholeDigits, afterWhole) := takeDigits cs
  let (fraction, fractionDigits, afterFraction) := match afterWhole with
    | '.' :: r => takeDigits r
    | r => (0, 0, r)
  if wholeDigits + fractionDigits = 0 then none
  else
    match takeExponent afterFraction with
    | some (exponent, []) =>
      let mantissa : Int := Int.ofNat (whole * Nat.pow 10 fractionDigits + fraction)
      some (ofScientific (if negative then -mantissa else mantissa) (exponent - fractionDigits))
    | _ => none

/-- The value of digits in a base from 2 to 16, either letter case; `none` if a digit is missing or too large. -/
def parseBase? (base : Nat) (cs : List Char) : Option Nat :=
  let digit (c : Char) : Option Nat :=
    let value :=
      if c.isDigit then c.toNat - '0'.toNat
      else if 'a' ≤ c ∧ c ≤ 'f' then c.toNat - 'a'.toNat + 10
      else if 'A' ≤ c ∧ c ≤ 'F' then c.toNat - 'A'.toNat + 10
      else base
    if value < base then some value else none
  if cs.isEmpty then none
  else (cs.mapM digit).map fun ds => ds.foldl (fun total d => total * base + d) 0

/-- Blank characters, which may stand around a numeral. -/
def isBlank (c : Char) : Bool :=
  c.toNat ∈ [0x9, 0xA, 0xB, 0xC, 0xD, 0x20, 0xA0, 0x1680, 0x2028, 0x2029, 0x202F, 0x205F, 0x3000, 0xFEFF] ||
    (0x2000 ≤ c.toNat && c.toNat ≤ 0x200A)

/-- The characters of a text without blanks around them. -/
def trimmed (s : String) : List Char := ((s.toList.dropWhile isBlank).reverse.dropWhile isBlank).reverse

/-- The base that a numeral is marked for by its first two characters, with its digits. -/
def marked? : List Char → Option (Nat × List Char)
  | '0' :: 'x' :: r | '0' :: 'X' :: r => some (16, r)
  | '0' :: 'o' :: r | '0' :: 'O' :: r => some (8, r)
  | '0' :: 'b' :: r | '0' :: 'B' :: r => some (2, r)
  | _ => none

/-- A sign, if there is one in front, and what it stands before. -/
def takeSign : List Char → Bool × List Char
  | '-' :: r => (true, r)
  | '+' :: r => (false, r)
  | r => (false, r)

/-- The number that a whole text spells: decimal, or hexadecimal, octal or binary after `0x`, `0o`, `0b`. Blanks
around it do not count, and blank text spells zero. -/
def parse? (s : String) : Option Number :=
  match trimmed s with
  | [] => some 0
  | cs =>
    match marked? cs with
    | some (base, digits) => (parseBase? base digits).map .ofNat
    | none =>
      let (negative, unsigned) := takeSign cs
      if unsigned = "Infinity".toList then some (.infinity negative) else parseUnsigned? negative unsigned

/-- The integer that a whole text spells, in the same notations but without fraction or exponent. -/
def parseInteger? (s : String) : Option Int :=
  match trimmed s with
  | [] => some 0
  | cs =>
    match marked? cs with
    | some (base, digits) => (parseBase? base digits).map Int.ofNat
    | none =>
      let (negative, unsigned) := takeSign cs
      (parseBase? 10 unsigned).map fun n => if negative then -n else n

/-! ## Shortest digits -/

/-- Decimal digits `digits` with the point `exponent` places after the last of them. -/
structure Decimal where
  digits : Nat
  exponent : Int

def Decimal.value (d : Decimal) : Rat := scaled d.digits d.exponent

/-- The least `n` with `num / den < 10 ^ n`, up to one. -/
def decimalMagnitude (num den : Nat) : Int :=
  let guess : Int := (Nat.toDigits 10 num).length - (Nat.toDigits 10 den).length
  if num * Nat.pow 10 (-guess).toNat < den * Nat.pow 10 guess.toNat then guess else guess + 1

/-- The neighbours of `q` on the grid of multiples of `10 ^ exponent` that read back as `q`, the nearer one first;
of two equally near ones the even one comes first. -/
def readingBack (q : Rat) (exponent : Int) : List Decimal :=
  let below := (q / scaled 1 exponent).floor.toNat
  let lower : Decimal := ⟨below, exponent⟩
  let upper : Decimal := ⟨below + 1, exponent⟩
  let left := q - lower.value
  let right := upper.value - q
  let ordered :=
    if left < right then [lower, upper]
    else if right < left then [upper, lower]
    else if below % 2 = 0 then [lower, upper] else [upper, lower]
  ordered.filter fun d => ofRat d.value == .finite q

/-- The shortest digits that read back as the positive number `q`. Seventeen digits always do. -/
def shortest (q : Rat) : Decimal :=
  let magnitude := decimalMagnitude q.num.natAbs q.den
  let candidates := (List.range 17).flatMap fun (k : Nat) => readingBack q (magnitude - (k + 1))
  candidates.headD ⟨(q / scaled 1 (magnitude - 17)).floor.toNat, magnitude - 17⟩

/-! ## Writing -/

/-- Exponents of the leading digit from -6 to 20 are written positionally. -/
def leastPositional : Int := -6

def greatestPositional : Int := 20

/-- Lays out significant digits, without trailing zeros, whose point stands `point` places after the first. -/
def layOut (digits : List Char) (point : Int) : List Char :=
  let leading := point - 1
  if leastPositional ≤ leading ∧ leading ≤ greatestPositional then
    if point ≤ 0 then "0.".toList ++ List.replicate (-point).toNat '0' ++ digits
    else if (digits.length : Int) ≤ point then digits ++ List.replicate (point - digits.length).toNat '0'
    else digits.take point.toNat ++ '.' :: digits.drop point.toNat
  else
    let mark := if leading < 0 then "e-".toList else "e+".toList
    let fraction := if digits.length ≤ 1 then [] else '.' :: digits.drop 1
    digits.take 1 ++ fraction ++ mark ++ Nat.toDigits 10 leading.natAbs

/-- The text of a positive number. -/
def positiveText (q : Rat) : List Char :=
  let d := shortest q
  let all := Nat.toDigits 10 d.digits
  layOut (all.reverse.dropWhile (· = '0')).reverse (all.length + d.exponent)

/-- The text of a number. -/
def text : Number → String
  | .nan => "NaN"
  | .infinity negative => if negative then "-Infinity" else "Infinity"
  | .finite q =>
    if q = 0 then "0"
    else if q.den = 1 ∧ q.num.natAbs ≤ exactBound then toString q.num
    else if q < 0 then String.ofList ('-' :: positiveText (-q))
    else String.ofList (positiveText q)

end LosslessSyntax.Number
