import LosslessSyntax.Text.Lines
import LosslessSyntax.Token

/-!
# Lexemes of the calculator language

The calculator language has names, numbers, operators, parentheses and semicolons. Blanks and `//` comments lead the
lexeme that follows them, and whatever trails the last one belongs to the end of the file, so that the lexemes tile
the source. Any other unit is a lexeme of its own, of an unknown kind.
-/

namespace LosslessSyntax.Calc

/-- Token kinds. -/
inductive Kind where
  | endOfFile
  | identifier
  | number
  | equals
  | plus
  | minus
  | star
  | slash
  | openParen
  | closeParen
  | semicolon
  | unknown
  deriving DecidableEq, Repr

namespace Kind

/-- All kinds, in the order of their ids. -/
def all : List Kind :=
  [.endOfFile, .identifier, .number, .equals, .plus, .minus, .star, .slash, .openParen, .closeParen, .semicolon,
    .unknown]

def id : Kind → Nat
  | .endOfFile => 0
  | .identifier => 1
  | .number => 2
  | .equals => 3
  | .plus => 4
  | .minus => 5
  | .star => 6
  | .slash => 7
  | .openParen => 8
  | .closeParen => 9
  | .semicolon => 10
  | .unknown => 11

def name : Kind → Text
  | .endOfFile => "EndOfFile"
  | .identifier => "Identifier"
  | .number => "Number"
  | .equals => "Equals"
  | .plus => "Plus"
  | .minus => "Minus"
  | .star => "Star"
  | .slash => "Slash"
  | .openParen => "OpenParen"
  | .closeParen => "CloseParen"
  | .semicolon => "Semicolon"
  | .unknown => "Unknown"

end Kind

/-- A kind with the offsets of a token. -/
structure Lexeme where
  kind : Kind
  fullStart : Nat
  start : Nat
  length : Nat
  deriving DecidableEq, Repr

def Lexeme.token (l : Lexeme) : Token :=
  ⟨.ofNat l.kind.id, .ofNat l.fullStart, .ofNat l.start, .ofNat l.length⟩

/-- The lexemes of a source. -/
structure Lexing where
  lexemes : List Lexeme
  endOfFile : Lexeme
  deriving DecidableEq, Repr

def Lexing.toList (l : Lexing) : List Lexeme := l.lexemes ++ [l.endOfFile]

/-! ## Units -/

/-- The unit of an ASCII character. -/
def unit (c : Char) : UInt16 := c.toNat.toUInt16

def isBlankUnit (u : UInt16) : Bool :=
  u == unit ' ' || u == unit '\t' || u == Text.carriageReturn || u == Text.lineFeed

def isDigitUnit (u : UInt16) : Bool := unit '0' ≤ u && u ≤ unit '9'

/-- Units that begin a name. -/
def isNameStart (u : UInt16) : Bool :=
  (unit 'A' ≤ u && u ≤ unit 'Z') || (unit 'a' ≤ u && u ≤ unit 'z') || u == unit '_'

/-- Units that go on with a name. -/
def isNameUnit (u : UInt16) : Bool := isNameStart u || isDigitUnit u

/-- The kind of a unit that is a lexeme by itself. -/
def punctuation (u : UInt16) : Kind :=
  if u = unit '=' then .equals
  else if u = unit '+' then .plus
  else if u = unit '-' then .minus
  else if u = unit '*' then .star
  else if u = unit '/' then .slash
  else if u = unit '(' then .openParen
  else if u = unit ')' then .closeParen
  else if u = unit ';' then .semicolon
  else .unknown

/-! ## Lexing -/

/-- How many units of trivia a text begins with, from inside a comment or outside. A comment ends before the next line
feed. -/
def triviaLength : Bool → Text → Nat
  | _, [] => 0
  | true, u :: rest => triviaLength (u != Text.lineFeed) rest + 1
  | false, u :: rest =>
    if isBlankUnit u then triviaLength false rest + 1
    else if u = unit '/' ∧ rest.head? = some (unit '/') then triviaLength true rest + 1
    else 0

/-- The kind and the length of the lexeme that begins with `u`; names and numbers are as long as they can be. -/
def significant (u : UInt16) (rest : Text) : Kind × Nat :=
  if isNameStart u then (.identifier, (rest.takeWhile isNameUnit).length + 1)
  else if isDigitUnit u then (.number, (rest.takeWhile isDigitUnit).length + 1)
  else (punctuation u, 1)

/-- Lexes at most `count` lexemes of a text that begins at `offset`. -/
def lexFrom : Nat → Nat → Text → Lexing
  | 0, offset, _ => ⟨[], ⟨.endOfFile, offset, offset, 0⟩⟩
  | count + 1, offset, t =>
    let trivia := triviaLength false t
    match t.drop trivia with
    | [] => ⟨[], ⟨.endOfFile, offset, offset + trivia, trivia⟩⟩
    | u :: rest =>
      let (kind, size) := significant u rest
      let later := lexFrom count (offset + (trivia + size)) (t.drop (trivia + size))
      { later with lexemes := ⟨kind, offset, offset + trivia, trivia + size⟩ :: later.lexemes }

/-- The lexemes of a text. Each but the last takes a unit at least. -/
def lex (t : Text) : Lexing := lexFrom (t.length + 1) 0 t

end LosslessSyntax.Calc
