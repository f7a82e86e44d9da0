import LosslessSyntax.Value.Basic
import LosslessSyntax.Value.Members

/-!
# Grammar tables

A grammar is the table that trees are built against: the registries of token and node kinds, and one `Variant` for each
node kind with the layout of its child slots. Nothing here changes once it is made; variants, registries and grammars
are objects of the store, and each knows its own number there.
-/

namespace LosslessSyntax

/-! ## Registries -/

/-- Kind names with their ids, in the order in which they were given. -/
structure Registry where
  entries : List (Value × Nat)
  deriving DecidableEq

namespace Registry

def empty : Registry := ⟨[]⟩

def size (r : Registry) : Nat := r.entries.length

def idOf? (r : Registry) (name : Value) : Option Nat := r.entries.lookup name

def nameOf? (r : Registry) (id : Nat) : Option Value :=
  (r.entries.find? (·.2 == id)).map (·.1)

/-- The name of a kind given as a value, of which only a number can be an id. -/
def nameOfValue? (r : Registry) : Value → Option Value
  | .number n => n.toNat?.bind r.nameOf?
  | _ => none

/-- What a registry shows of itself. -/
def members (r : Registry) : Members Value :=
  [("size", .ofNat r.size), ("nameOf", .operation "nameOf"), ("idOf", .operation "idOf"),
    ("entries", .operation "entries")]

end Registry

/-! ## Variants -/

/-- Slot names with what is declared of them, in source order. -/
abbrev Layout := Members Value

/-- The word for a slot that holds a single child. -/
def Layout.one : Value := .text "one"

/-- The word for a slot that holds a list of children. -/
def Layout.many : Value := .text "many"

/-- One node kind of a grammar. `self` is its number in the store, by which variants are told apart; its layout is the
object after it. -/
structure Variant where
  self : ObjectId
  kind : Nat
  name : Text
  layout : Layout
  isSourceFile : Bool
  deriving DecidableEq

namespace Variant

def slotNames (v : Variant) : List Text := v.layout.names

/-- Stands in where a node is made of something else than a variant, which is then assigned to the node. -/
def blank : Variant := { self := 0, kind := 0, name := [], layout := [], isSourceFile := true }

/-- What a variant shows of itself. -/
def members (v : Variant) : Members Value :=
  [("kind", .ofNat v.kind), ("name", .text v.name), ("layout", .object (v.self + 1)),
    ("isSourceFile", .bool v.isSourceFile)]

end Variant

/-- What is declared of a slot, if it is declared at all. -/
def Layout.arity? (l : Layout) (slot : Text) : Option Value :=
  match l.get? slot with
  | some .undefined | none => none
  | some arity => some arity

/-! ## Grammars -/

/-- A grammar. Its two registries are the objects after it. -/
structure Grammar where
  self : ObjectId
  tokenKinds : Registry
  nodeKinds : Registry
  variants : List Variant
  sourceFile : Variant
  endOfFileKind : Nat
  deriving DecidableEq

namespace Grammar

/-- The number of the variant at a position, in a grammar with the number `self`. -/
def variantId (self : ObjectId) (kind : Nat) : ObjectId := self + 3 + 2 * kind

/-- What a grammar shows of itself. -/
def members (g : Grammar) : Members Value :=
  [("tokenKinds", .object (g.self + 1)), ("nodeKinds", .object (g.self + 2)), ("sourceFile", .object g.sourceFile.self),
    ("endOfFileKind", .ofNat g.endOfFileKind), ("variant", .operation "variant"),
    ("variantOf", .operation "variantOf"), ("tokenKind", .operation "tokenKind"),
    ("variants", .operation "variants")]

end Grammar

end LosslessSyntax
