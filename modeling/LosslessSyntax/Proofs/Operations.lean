import LosslessSyntax.Proofs.Attempts
import LosslessSyntax.Session

/-!
# Operations

What the library can be asked for in a session. A `TreeOperation` makes a node, reads one, or pulls a walk once; an
`Operation` is one of those or makes or asks a registry, a grammar or a variant, or renders. Each has the type of what
it gives, and `perform` does it.

A `Client` asks for one operation after the other. What it asks for next can depend on all that it was given before,
failures included: a walk that was opened can be pulled again, also after a pull that failed, and so can a node be read
that was made.
-/

namespace LosslessSyntax

open Session

/-! ## Trees -/

/-- The operations on trees. -/
inductive TreeOperation : Type → Type where
  | create (variant : Variant) (children : Value) : TreeOperation ObjectId
  | createSourceFile (grammar source children : Value) : TreeOperation ObjectId
  | isNode (v : Value) : TreeOperation Bool
  | isSourceFile (v : Value) : TreeOperation Bool
  | isElement (v : Value) : TreeOperation Bool
  | parent (v : Value) : TreeOperation (Option ObjectId)
  | root (v : Value) : TreeOperation ObjectId
  | ancestor (v kind : Value) : TreeOperation (Option ObjectId)
  | kindName (v : Value) : TreeOperation Value
  | child (v : Value) (slot : Text) : TreeOperation Value
  | list (v : Value) (slot : Text) : TreeOperation Value
  | entries (v : Value) : TreeOperation (Members Value)
  | walkChildren (accept : Accept) (v : Value) : TreeOperation Walk
  | walkDescendants (accept : Accept) (v : Value) : TreeOperation Walk
  | pull (predicate : Option (Store → Predicate)) (w : Walk) : TreeOperation Pull
  | fullStart (v : Value) : TreeOperation Number
  | start (v : Value) : TreeOperation Number
  | width (v : Value) : TreeOperation Value
  | fullWidth (v : Value) : TreeOperation Value
  | stop (v : Value) : TreeOperation Value
  | endPosition (v : Value) : TreeOperation Value
  | firstToken (v : Value) : TreeOperation (Option (ObjectId × Token))
  | text (v : Value) : TreeOperation Text
  | fullText (v : Value) : TreeOperation Text
  | leadingTrivia (v : Value) : TreeOperation Data
  | nodeAt (v offset : Value) : TreeOperation (Option ObjectId)
  | tokenAt (v offset : Value) : TreeOperation (Option (ObjectId × Token))
  | positionAt (file offset : Value) : TreeOperation Position
  | offsetAt (file line character : Value) : TreeOperation Value
  | nodeAtPosition (file line character : Value) : TreeOperation (Option ObjectId)
  | range (v : Value) : TreeOperation Range
  | fullRange (v : Value) : TreeOperation Range

/-- What is done in a session for an operation on trees. -/
def TreeOperation.perform : {α : Type} → TreeOperation α → SessionM α
  | _, .create variant children => createNode variant children
  | _, .createSourceFile grammar source children => Session.createSourceFile grammar source children
  | _, .isNode v => return (← get).store.namesNode v
  | _, .isSourceFile v => return (← get).store.namesSourceFile v
  | _, .isElement v => return (← get).store.isElement v
  | _, .parent v => return v.object?.bind (← get).store.parent?
  | _, .root v => observe (·.root v)
  | _, .ancestor v kind => return (← get).store.ancestor? v kind
  | _, .kindName v => reading (·.kindName v)
  | _, .child v slot => observe (·.child v slot)
  | _, .list v slot => observe (·.list v slot)
  | _, .entries v => observe (·.contents v)
  | _, .walkChildren accept v => observe (Walk.children · accept v)
  | _, .walkDescendants accept v => observe (Walk.descendants · accept v)
  | _, .pull predicate w => Session.pull predicate w
  | _, .fullStart v => observe (·.fullStart v)
  | _, .start v => observe (·.start v)
  | _, .width v => observe (·.width v)
  | _, .fullWidth v => observe (·.fullWidth v)
  | _, .stop v => observe (·.stop v)
  | _, .endPosition v => observe (·.endPosition v)
  | _, .firstToken v => observe (·.firstToken v)
  | _, .text v => observe (·.nodeText v)
  | _, .fullText v => observe (·.fullText v)
  | _, .leadingTrivia v => observe (·.leadingTrivia v)
  | _, .nodeAt v offset => observe (·.nodeAt v offset)
  | _, .tokenAt v offset => observe (·.tokenAt v offset)
  | _, .positionAt file offset => Session.positionAt file offset
  | _, .offsetAt file line character => Session.offsetAt file line character
  | _, .nodeAtPosition file line character => Session.nodeAtPosition file line character
  | _, .range v => Session.range v
  | _, .fullRange v => Session.fullRange v

/-- The failure by which an operation on trees fails, if it does. A pull hands out its failure along with the walk after
it. -/
def TreeOperation.failure? : {α : Type} → TreeOperation α → Attempt α → Option Failure
  | _, .pull .., .ok p => p.failure?
  | _, _, outcome => Attempt.failure? outcome

/-! ## All operations -/

/-- The operations of the library. -/
inductive Operation : Type → Type 1 where
  | tree {α : Type} (operation : TreeOperation α) : Operation α
  | make (o : Object) : Operation ObjectId
  | kindsOfList (names : Value) : Operation (ObjectId × Registry)
  | kindsOfTable (table : Value) : Operation (ObjectId × Registry)
  | nameOf (kinds id : Value) : Operation (Option Value)
  | idOf (kinds name : Value) : Operation (Option Nat)
  | kindEntries (kinds : Value) : Operation (List (Value × Nat))
  | defineGrammar (definition : Value) : Operation Grammar
  | loadGrammar (definition : Value) : Operation Grammar
  | variant (grammar name : Value) : Operation Variant
  | variantOf (grammar kind : Value) : Operation Variant
  | variants (grammar : Value) : Operation (List Variant)
  | tokenKind (grammar name : Value) : Operation Nat
  | slotNames (v : Variant) : Operation (List Text)
  | arity (v : Variant) (slot : Text) : Operation (Option Value)
  | render (grammar v options : Value) : Operation Data
  | renderJson (grammar v options : Value) : Operation Text

/-- What is done in a session for an operation. -/
def Operation.perform : {α : Type} → Operation α → SessionM α
  | _, .tree operation => operation.perform
  | _, .make o => allocate o
  | _, .kindsOfList names => addRegistry (Registry.ofList · names)
  | _, .kindsOfTable table => addRegistry (Registry.ofTable · table)
  | _, .nameOf kinds id => return (← reading (·.registryFor kinds "nameOf")).nameOfValue? id
  | _, .idOf kinds name => return (← reading (·.registryFor kinds "idOf")).idOf? name
  | _, .kindEntries kinds => return (← reading (·.registryFor kinds "entries")).entries
  | _, .defineGrammar definition => Session.defineGrammar definition
  | _, .loadGrammar definition => Session.loadGrammar definition
  | _, .variant grammar name => do
    let g ← reading (·.grammarFor grammar "variant")
    attempt (g.variant name)
  | _, .variantOf grammar kind => do
    let g ← reading (·.grammarFor grammar "variantOf")
    attempt (g.variantOf (← get).store kind)
  | _, .variants grammar => return (← reading (·.grammarFor grammar "variants")).variants
  | _, .tokenKind grammar name => do
    let g ← reading (·.grammarFor grammar "tokenKind")
    attempt (g.tokenKind name)
  | _, .slotNames v => Session.slotNames v
  | _, .arity v slot => return v.layout.arity? slot
  | _, .render grammar v options => Session.render grammar v options
  | _, .renderJson grammar v options => Session.renderJson grammar v options

/-! ## Clients -/

/-- Someone who asks for one operation after the other, and goes on by what the last one came to. -/
inductive Client : Type 1 where
  | done : Client
  | call {α : Type} (operation : Operation α) (next : Except Failure α → Client) : Client

end LosslessSyntax
