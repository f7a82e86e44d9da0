import LosslessSyntax.Number.Decimal
import LosslessSyntax.Text.Basic

/-!
# JSON

JSON documents and their text, on one line or indented by two blanks a level. Numbers that are not finite are written
as `null`. In strings only quotes, backslashes, control characters and halves of surrogate pairs that stand alone are
escaped.
-/

namespace LosslessSyntax

/-- A JSON document; members are in order. -/
inductive Json where
  | null
  | bool (value : Bool)
  | number (value : Number)
  | string (value : Text)
  | array (items : List Json)
  | object (members : List (Text × Json))

namespace Json

/-- One line, or indented lines. -/
inductive Style where
  | compact
  | indented
  deriving DecidableEq, Repr

/-- What stands before an item or a closing bracket at a nesting depth. -/
def Style.lineBreak : Style → Nat → Text
  | .compact, _ => []
  | .indented, depth => 0x0A :: List.replicate (2 * depth) 0x20

/-- What stands between a member's name and its value. -/
def Style.colon : Style → Text
  | .compact => ":"
  | .indented => ": "

/-! ## Strings -/

/-- A hexadecimal digit. -/
def hexDigit (n : Nat) : UInt16 := (if n < 10 then 0x30 + n else 0x61 + (n - 10)).toUInt16

/-- A unit by its number. -/
def escapeUnit (u : UInt16) : Text :=
  let n := u.toNat
  "\\u" ++ [hexDigit (n / 4096), hexDigit (n / 256 % 16), hexDigit (n / 16 % 16), hexDigit (n % 16)]

/-- A unit inside quotes that is no surrogate. -/
def escape (u : UInt16) : Text :=
  if u = 0x22 then "\\\""
  else if u = 0x5C then "\\\\"
  else if u = 0x08 then "\\b"
  else if u = 0x09 then "\\t"
  else if u = 0x0A then "\\n"
  else if u = 0x0C then "\\f"
  else if u = 0x0D then "\\r"
  else if u < 0x20 then escapeUnit u
  else [u]

/-- A text inside quotes, and what follows it. -/
def escaped : Text → Text → Text
  | [], rest => rest
  | u :: [], rest =>
    (if Text.isHighSurrogate u || Text.isLowSurrogate u then escapeUnit u else escape u) ++ rest
  | u :: v :: after, rest =>
    if Text.isHighSurrogate u then
      if Text.isLowSurrogate v then u :: v :: escaped after rest
      else escapeUnit u ++ escaped (v :: after) rest
    else if Text.isLowSurrogate u then escapeUnit u ++ escaped (v :: after) rest
    else escape u ++ escaped (v :: after) rest

/-- A text in quotes, and what follows it. -/
def quoted (t rest : Text) : Text := 0x22 :: escaped t (0x22 :: rest)

def quote (t : Text) : Text := quoted t []

/-! ## Documents -/

/-- The JSON text of a number. -/
def numberText : Number → Text
  | .finite q => (Number.finite q).text
  | _ => "null"

mutual

/-- A document at a nesting depth, and what follows it. -/
def write (style : Style) (depth : Nat) : Json → Text → Text
  | .null, rest => "null" ++ rest
  | .bool b, rest => (if b then "true" else "false") ++ rest
  | .number n, rest => numberText n ++ rest
  | .string t, rest => quoted t rest
  | .array [], rest => "[]" ++ rest
  | .array (item :: items), rest =>
    0x5B :: (style.lineBreak (depth + 1) ++ write style (depth + 1) item
      (writeItems style (depth + 1) items (style.lineBreak depth ++ 0x5D :: rest)))
  | .object [], rest => "\x7b\x7d" ++ rest
  | .object ((name, value) :: members), rest =>
    0x7B :: (style.lineBreak (depth + 1) ++ quoted name (style.colon ++ write style (depth + 1) value
      (writeMembers style (depth + 1) members (style.lineBreak depth ++ 0x7D :: rest))))

/-- The items after the first. -/
def writeItems (style : Style) (depth : Nat) : List Json → Text → Text
  | [], rest => rest
  | item :: items, rest =>
    0x2C :: (style.lineBreak depth ++ write style depth item (writeItems style depth items rest))

/-- The members after the first. -/
def writeMembers (style : Style) (depth : Nat) : List (Text × Json) → Text → Text
  | [], rest => rest
  | (name, value) :: members, rest =>
    0x2C :: (style.lineBreak depth ++ quoted name (style.colon ++ write style depth value
      (writeMembers style depth members rest)))

end

/-- The text of a document. -/
def render (style : Style) (j : Json) : Text := j.write style 0 []

end Json

end LosslessSyntax
