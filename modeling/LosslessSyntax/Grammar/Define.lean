import LosslessSyntax.Grammar.Definition

/-!
# Defining grammars

`Grammar.define` builds the tables of a definition and refuses those that do not fit together. Token names are checked
first, then node names, slot names in order, the source file and its end-of-file slot, and last the end-of-file token.

Variants are looked up by name or by position, and token kinds by name.
-/

namespace LosslessSyntax

namespace Grammar

/-! ## Definition -/

/-- The variants of a definition, numbered in order, for a grammar with the number `self`. -/
def variantsOf (self : ObjectId) (d : Definition) : List Variant :=
  d.nodes.zipIdx.map fun ((name, layout), kind) =>
    { self := variantId self kind, kind, name, layout, isSourceFile := Value.text name = d.sourceFile }

/-- Builds a grammar with the number `self`. -/
def define (s : Store) (self : ObjectId) (d : Definition) : Attempt Grammar := do
  let tokenKinds ← Registry.ofNames s d.tokens
  let nodeKinds ← Registry.ofNames s (d.nodes.names.map .text)
  d.nodes.forM fun (name, layout) => Definition.checkSlots name layout
  let variants := variantsOf self d
  match variants.find? (·.isSourceFile) with
  | none =>
    let name ← Attempt.ofMisuse (s.text d.sourceFile)
    throw (.fault (.invalidDefinition (.undeclaredSourceFile name)))
  | some sourceFile =>
    if sourceFile.layout.arity? endOfFileSlot ≠ some Layout.one then
      throw (.fault (.invalidDefinition (.noEndOfFileSlot sourceFile.name)))
    match tokenKinds.idOf? d.endOfFile with
    | none =>
      let token ← Attempt.ofMisuse (s.text d.endOfFile)
      throw (.fault (.invalidDefinition (.undeclaredEndOfFile token)))
    | some endOfFileKind => return { self, tokenKinds, nodeKinds, variants, sourceFile, endOfFileKind }

/-! ## Look-up -/

/-- The variant of a name. -/
def variant (g : Grammar) (name : Value) : Attempt Variant :=
  match g.variants.find? (Value.text ·.name = name) with
  | some v => .ok v
  | none => .error (.fault (.unknownKind name .node))

/-- The variant at a position, which may be given as a number or as its text. What a list answers to besides its items
is no variant. -/
def variantOf (s : Store) (g : Grammar) (kind : Value) : Attempt Variant := do
  let key ← Attempt.ofMisuse (s.text kind)
  match (Members.index? key).bind (g.variants[·]?) with
  | some v => return v
  | none =>
    if key = "length" || (undeclaredInList key).truthy then throw (.misuse .noMembers)
    else throw (.fault (.unknownKind kind .node))

/-- The id of a token kind. -/
def tokenKind (g : Grammar) (name : Value) : Attempt Nat :=
  match g.tokenKinds.idOf? name with
  | some id => .ok id
  | none => .error (.fault (.unknownKind name .token))

/-- The objects of a grammar, in the order of their numbers. -/
def objects (g : Grammar) : List Object :=
  .grammar g :: .registry g.tokenKinds :: .registry g.nodeKinds ::
    g.variants.flatMap fun v => [.variant v, .record v.layout true]

end Grammar

namespace Store

/-- Defines a grammar as the next objects of the store. -/
def addGrammar (s : Store) (d : Definition) : Attempt (Grammar × Store) := do
  let g ← Grammar.define s s.size d
  return (g, s.addAll g.objects)

/-- The grammar that answers to an operation asked of a value: the value itself, or the grammar that it extends. -/
def grammarFor (s : Store) (v : Value) (operation : Text) : Except Misuse Grammar :=
  if v.isMissing then .error .noMembers
  else
    match s.operationHolder? v operation with
    | some (.grammar g) => .ok g
    | _ => .error .noOperation

/-- The registry that answers to an operation asked of a value. -/
def registryFor (s : Store) (v : Value) (operation : Text) : Except Misuse Registry :=
  if v.isMissing then .error .noMembers
  else
    match s.operationHolder? v operation with
    | some (.registry r) => .ok r
    | _ => .error .noOperation

end Store

end LosslessSyntax
