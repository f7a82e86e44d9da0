import LosslessSyntax.Number.Basic

/-!
# Text

Source text is a sequence of 16-bit code units, and every offset counts units. A cut may separate the two units of a
character beyond the basic plane, so text is not a `String`; `Text.toString?` gives the string back when no half of
such a pair stands alone.

A `Source` is a text whose offsets are all exact numbers.
-/

namespace LosslessSyntax

/-- A sequence of UTF-16 code units. -/
abbrev Text := List UInt16

namespace Text

/-! ## Code units -/

def isHighSurrogate (u : UInt16) : Bool := 0xD800 ≤ u && u ≤ 0xDBFF

def isLowSurrogate (u : UInt16) : Bool := 0xDC00 ≤ u && u ≤ 0xDFFF

/-- The one or two code units of a character. -/
def ofChar (c : Char) : Text :=
  if c.toNat < 0x10000 then [c.toNat.toUInt16]
  else
    let rest := c.toNat - 0x10000
    [(0xD800 + rest / 0x400).toUInt16, (0xDC00 + rest % 0x400).toUInt16]

def ofString (s : String) : Text := s.toList.flatMap ofChar

instance : Coe String Text := ⟨ofString⟩

/-- The decimal text of a natural number. -/
def ofNat (n : Nat) : Text := ofString (toString n)

/-- The characters of a text in which every surrogate is paired. -/
def toChars? : Text → Option (List Char)
  | [] => some []
  | u :: rest =>
    if isHighSurrogate u then
      match rest with
      | v :: after =>
        if isLowSurrogate v then
          (toChars? after).map (Char.ofNat (0x10000 + (u.toNat - 0xD800) * 0x400 + (v.toNat - 0xDC00)) :: ·)
        else none
      | [] => none
    else if isLowSurrogate u then none
    else (toChars? rest).map (Char.ofNat u.toNat :: ·)

def toString? (t : Text) : Option String := (toChars? t).map String.ofList

/-! ## Joining and comparing -/

/-- Texts with a separator between them. -/
def join (separator : Text) (parts : List Text) : Text := separator.intercalate parts

/-- Whether a text comes before another in the order of their units. -/
def precedes : Text → Text → Bool
  | _, [] => false
  | [], _ :: _ => true
  | u :: rest, v :: others => u < v || (u == v && precedes rest others)

/-! ## Cutting -/

/-- Where a number points in a text of the given length. Negative numbers count from the end, fractions are dropped, a
NaN points at the front, and what lies outside is moved to the nearest end. -/
def index (length : Nat) : Number → Nat
  | .nan => 0
  | .infinity negative => if negative then 0 else length
  | .finite q =>
    let i := Number.truncate q
    if i < 0 then (length + i).toNat else min i.toNat length

/-- The units from `first` up to, but excluding, `last`. -/
def slice (t : Text) (first last : Number) : Text :=
  let low := index t.length first
  (t.drop low).take (index t.length last - low)

end Text

/-- A source buffer. Its length bounds every offset into it, so all of them are exact numbers. -/
structure Source where
  text : Text
  length_le : text.length ≤ Number.exactBound
  deriving DecidableEq

namespace Source

def ofText? (t : Text) : Option Source :=
  if h : t.length ≤ Number.exactBound then some ⟨t, h⟩ else none

def length (s : Source) : Nat := s.text.length

def empty : Source := ⟨[], Nat.zero_le _⟩

end Source

end LosslessSyntax
