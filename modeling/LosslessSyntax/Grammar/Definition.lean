import LosslessSyntax.Grammar.Registry

/-!
# Grammar definitions

A definition names the token kinds and gives, for each node kind, the layout of its child slots in source order. Slot
names are identifiers, and one of them is reserved.

`Definition.ofValue` reads a definition and reports every place where the value has the wrong shape;
`Definition.readTrusting` takes it as it stands and fails at the first thing that cannot be read or used.
-/

namespace LosslessSyntax

structure Definition where
  tokens : List Value
  nodes : Members Layout
  sourceFile : Value
  endOfFile : Value
  deriving DecidableEq

/-- Units that can stand in an identifier but for digits: ASCII letters, `_` and `$`. -/
def isIdentifierUnit (u : UInt16) : Bool :=
  (0x41 ≤ u && u ≤ 0x5A) || (0x61 ≤ u && u ≤ 0x7A) || u == 0x5F || u == 0x24

/-- Slot names are identifiers: no digit comes first. -/
def isSlotName : Text → Bool
  | [] => false
  | u :: rest => isIdentifierUnit u && rest.all fun v => isIdentifierUnit v || Members.isDigit v

namespace Definition

/-- Refuses a layout in which some slot has a name that it may not have. -/
def checkSlots (node : Text) (layout : Layout) : Attempt Unit :=
  layout.forM fun (slot, _) =>
    if !isSlotName slot then throw (.fault (.invalidDefinition (.badSlotName slot node)))
    else if slot = reservedSlotName then throw (.fault (.invalidDefinition (.reservedSlot node)))
    else pure ()

/-! ## Reading -/

/-- The two words a checked definition may use for a slot. -/
def arityWords : List (Text × Value) := [("one", Layout.one), ("many", Layout.many)]

open Decoder in
/-- Reads a definition, reporting the issues of all four members. -/
def decoder : Decoder Definition := fun s v => do
  let read ← reader s v
  let tokens := field "tokens" (list nonEmptyString) s read
  let nodes := field "nodes" (table (· ≠ []) (table isSlotName (option arityWords))) s read
  let sourceFile := field "sourceFile" nonEmptyString s read
  let endOfFile := field "endOfFile" nonEmptyString s read
  let ((tokens, nodes), (sourceFile, endOfFile)) ←
    Checked.both (Checked.both tokens nodes) (Checked.both sourceFile endOfFile)
  return { tokens := tokens.map .text, nodes, sourceFile := .text sourceFile, endOfFile := .text endOfFile }

def ofValue (s : Store) (v : Value) : Attempt Definition := do
  match ← Attempt.ofMisuse (decoder s v).run with
  | .ok d => return d
  | .error issues => throw (.fault (.invalidDefinition (.badShape issues)))

/-- The members that a value lists; there are none to list in missing values. -/
def entriesOf (s : Store) (v : Value) : Attempt (Members Value) :=
  if v.isMissing then .error (.misuse .noMembers) else .ok (s.listed v)

/-- The layout that a value lists for a node kind. -/
def layoutOf (s : Store) (node : Text) (v : Value) : Attempt Layout := do
  let layout ← entriesOf s v
  checkSlots node layout
  return layout

/-- Takes a definition as it stands. Token names, layouts and slot names are looked at in the order in which they are
read. -/
def readTrusting (s : Store) (v : Value) : Attempt Definition := do
  let tokens ← Attempt.ofMisuse do s.mapped (← s.member "tokens" v)
  let _ ← Registry.ofElements s tokens
  let nodes ← (← entriesOf s (← Attempt.ofMisuse (s.member "nodes" v))).mapM fun (name, value) =>
    return (name, ← layoutOf s name value)
  let sourceFile ← Attempt.ofMisuse (s.member "sourceFile" v)
  let endOfFile ← Attempt.ofMisuse (s.member "endOfFile" v)
  return { tokens := tokens.values, nodes, sourceFile, endOfFile }

end Definition

end LosslessSyntax
