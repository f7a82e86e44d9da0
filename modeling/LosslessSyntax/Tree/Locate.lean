import LosslessSyntax.Text.Lines
import LosslessSyntax.Tree.Measure

/-!
# Locating

From offsets and positions to nodes and tokens, and from nodes to ranges of positions. All look-ups are linear scans.

Positions in a file are counted in its document: the source that the file held when a position in it was first asked
for. Offsets, lines and characters are numbers as a rule; other values count as the numbers they stand for. A document
is a text as a rule; any other has one line, as long as it does not give itself a length.
-/

namespace LosslessSyntax.Store

variable {m : Type → Type} [Monad m] [Reports m]

/-! ## By offset -/

/-- Whether the span `[fullStart, endPosition)` of a node contains an offset. The end is not looked at for nodes that
start later. -/
def spanContains (s : Store) (offset : Value) (id : ObjectId) : m Bool := do
  let first ← s.fullStart (.object id)
  if ← Attempt.ofMisuse (s.atMost (.number first) offset) then
    let last ← s.endPosition (.object id)
    Attempt.ofMisuse (s.lessThan offset last)
  else return false

/-- The last node below `v`, in document order, whose span contains the offset. -/
def nodeAt (s : Store) (v offset : Value) : m (Option ObjectId) := do
  (← s.descendantNodes v).reverse.findM? (s.spanContains offset)

/-- Whether the span `[fullStart, stop)` of a token contains an offset. -/
def tokenContains (s : Store) (offset : Value) (t : Token) : Except Misuse Bool := do
  if ← s.atMost (.number t.fullStart) offset then s.lessThan offset (.number t.stop) else return false

/-- The first token below `v` whose span, leading trivia included, contains the offset. -/
def tokenAt (s : Store) (v offset : Value) : m (Option (ObjectId × Token)) :=
  s.findToken (fun id t => do
    return if ← Attempt.ofMisuse (s.tokenContains offset t) then some (id, t) else none) v

/-! ## Documents -/

/-- The document of a source file, kept from its first use on. -/
def document (s : Store) (v : Value) : Except Misuse (Document × Store) :=
  match v with
  | .object id =>
    match (s.kept id).document with
    | some d => .ok (d, s)
    | none => do
      let _ ← s.text (← s.kindName v)
      let d : Document := { content := s.lookup id "source" }
      return (d, s.keep id ({ · with document := some d }))
  | _ => do
    let _ ← s.kindName v
    .error .noMembers

/-- The offsets at which the lines of a document start. Only a text has a unit to look at. -/
def lineStarts (s : Store) (d : Document) : Except Misuse (List Nat) := do
  match d.content with
  | .text t => return t.lineStarts
  | content =>
    if !d.counted then
      if ← s.lessThan (.number 0) (← s.member "length" content) then throw .noOperation
    return [0]

/-- Notes that the lines of the document of a file have been found. -/
def noteLines (s : Store) (file : Value) : Store :=
  match file with
  | .object id =>
    match (s.kept id).document with
    | some d => if d.counted then s else s.keep id ({ · with document := some { d with counted := true } })
    | none => s
  | _ => s

/-- Moves an offset in a document back over the line break units before it, not beyond a line start. -/
def beforeBreak (s : Store) (d : Document) (lineStart : Value) (offset : Number) : Except Misuse Number := do
  match d.content with
  | .text t => return t.beforeBreak (← s.toNumber lineStart) (t.length + 1) offset
  | _ => if ← s.lessThan lineStart (.number offset) then throw .noOperation else return offset

/-! ## Positions of offsets -/

/-- An offset moved into a document. -/
def clampedOffset (s : Store) (d : Document) (offset : Value) : Except Misuse Number := do
  let length ← s.member "length" d.content
  let offset ← s.toNumber offset
  return (offset.least (← s.toNumber length)).greatest 0

/-- The position of an offset in a document. -/
def positionIn (s : Store) (d : Document) (offset : Value) : Except Misuse Position :=
  match d.content with
  | .text t => do return t.positionAt (← s.toNumber offset)
  | _ => do
    let clamped ← s.clampedOffset d offset
    let _ ← s.lineStarts d
    return ⟨0, ← s.beforeBreak d (.number 0) clamped⟩

/-! ## Offsets of positions -/

/-- What any value gives as the number of a line among line starts. -/
def lineStart (s : Store) (starts : List Nat) (line : Value) : Except Misuse Value := do
  let name ← s.text line
  return if name = "length" then .ofNat starts.length
    else ((Members.index? name).bind (starts[·]?)).elim (undeclaredInList name) .ofNat

/-- The offset, in a document, of a position that is given by values of any sort. -/
def offsetOfValues (s : Store) (d : Document) (line character : Value) : Except Misuse Value := do
  let starts ← s.lineStarts d
  let count := Value.ofNat starts.length
  let length := s.member "length" d.content
  if ← s.atMost count line then return ← length
  if ← s.lessThan line (.number 0) then return .number 0
  let start ← s.lineStart starts line
  if ← s.atMost character (.number 0) then return start
  let next ← s.plus line (.number 1)
  let nextStart ← if ← s.lessThan next count then s.lineStart starts next else length
  let reach ← s.toNumber (← s.plus start character)
  return .number (← s.beforeBreak d start (reach.least (← s.toNumber nextStart)))

/-- The offset of a position in a document. -/
def offsetIn (s : Store) (d : Document) (line character : Value) : Except Misuse Value :=
  match d.content, line, character with
  | .text t, .number line, .number character => .ok ((t.offsetAt ⟨line, character⟩).elim .undefined .number)
  | _, line, character => s.offsetOfValues d line character

end LosslessSyntax.Store
