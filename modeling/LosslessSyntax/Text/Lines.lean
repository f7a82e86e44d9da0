import LosslessSyntax.Text.Basic

/-!
# Lines

The text documents of `vscode-languageserver-textdocument`: `Text.positionAt` and `Text.offsetAt` are the functions of
these names that a document has.

A line ends after `\n`, after `\r`, or after the two together. A position names a line and a number of units into it.
`positionAt` and `offsetAt` go back and forth between offsets and positions; both keep out of line breaks: an offset
among the units of a break is moved back to the end of the line's text.
-/

namespace LosslessSyntax

/-- A line, counted from zero, and a number of units into it. -/
structure Position where
  line : Number
  character : Number
  deriving DecidableEq

/-- Two positions, the end excluded. -/
structure Range where
  start : Position
  stop : Position
  deriving DecidableEq

namespace Text

def lineFeed : UInt16 := 0x0A

def carriageReturn : UInt16 := 0x0D

def isBreakUnit (u : UInt16) : Bool := u == lineFeed || u == carriageReturn

/-- The offsets just after each line break, the first unit being at `offset`. -/
def breakEnds (offset : Nat) : Text → List Nat
  | [] => []
  | u :: rest =>
    if u = lineFeed ∨ (u = carriageReturn ∧ rest.head? ≠ some lineFeed) then
      (offset + 1) :: breakEnds (offset + 1) rest
    else breakEnds (offset + 1) rest

/-- The offset at which each line starts. -/
def lineStarts (t : Text) : List Nat := 0 :: breakEnds 0 t

/-- The unit that a number points at. -/
def unitAt? (t : Text) : Number → Option UInt16
  | .nan => t.head?
  | .infinity _ => none
  | .finite q =>
    let i := Number.truncate q
    if i < 0 then none else t[i.toNat]?

/-- Moves an offset back over the line break units before it, at most `steps` of them and not beyond `lineStart`. -/
def beforeBreak (t : Text) (lineStart : Number) : Nat → Number → Number
  | 0, offset => offset
  | steps + 1, offset =>
    if lineStart.lt offset && (t.unitAt? (offset - 1)).any isBreakUnit then
      beforeBreak t lineStart steps (offset - 1)
    else offset

/-- The position of an offset. Offsets outside the text are moved to its nearest end. -/
def positionAt (t : Text) (offset : Number) : Position :=
  let clamped := (offset.least (.ofNat t.length)).greatest 0
  let before := t.lineStarts.takeWhile fun start => !clamped.lt (.ofNat start)
  let lineStart := Number.ofNat (before.getLastD 0)
  ⟨.ofNat (before.length - 1), t.beforeBreak lineStart (t.length + 1) clamped - lineStart⟩

/-- The offset of a position. Lines beyond the last lead to the end of the text, lines before the first to its start,
and characters outside a line to the nearest end of it. There is none where the line is not a whole number and the
character is not positive. -/
def offsetAt (t : Text) (p : Position) : Option Number :=
  let starts := t.lineStarts
  if (Number.ofNat starts.length).le p.line then some (.ofNat t.length)
  else if p.line.lt 0 then some 0
  else
    let line := p.line.toNat?
    let lineStart := line.bind (starts[·]?)
    if p.character.le 0 then lineStart.map .ofNat
    else
      match line, lineStart with
      | some n, some start =>
        let nextStart := (starts[n + 1]?).getD t.length
        let offset := (Number.ofNat start + p.character).least (.ofNat nextStart)
        some (t.beforeBreak (.ofNat start) (t.length + 1) offset)
      | _, _ => some .nan

end Text

end LosslessSyntax
