import LosslessSyntax.Tree.Items
import LosslessSyntax.Tree.Links

/-!
# Measures

Positions, widths and texts of nodes. Nodes store no spans: everything is computed from the tokens below them. A node
starts where its first child starts; its width counts the first child without leading trivia and all later ones with
it; its text is read from the buffer of its source file.
-/

namespace LosslessSyntax.Store

variable {m : Type → Type} [Monad m] [Reports m]

/-! ## Starts -/

/-- An offset of the first token, found by following first children down to a depth. -/
def edgeAt (s : Store) (offset : Token → Number) : Nat → Value → m Number
  | 0, _ => throw (.misuse .endless)
  | depth + 1, v => do
    match ← s.items v with
    | [] => s.malformed .noChildren v
    | first :: _ =>
      match ← s.read v first with
      | .node child _ => edgeAt s offset depth (.object child)
      | .token _ t => return offset t

/-- The offset of a node with its leading trivia. -/
def fullStart (s : Store) (v : Value) : m Number := s.edgeAt Token.fullStart (s.size + 1) v

/-- The offset of a node's significant text. -/
def start (s : Store) (v : Value) : m Number := s.edgeAt Token.start (s.size + 1) v

/-! ## Widths -/

/-- Adds up a measure of items in order, stopping at the first failure. -/
def sumItems (s : Store) (owner : Value) (nodeSize : Value → m Number) (total : Number) (items : List Item) :
    m Number :=
  items.foldlM (fun sum item => do
    match ← s.read owner item with
    | .node child _ => return sum + (← nodeSize (.object child))
    | .token _ t => return sum + t.fullWidth) total

/-- The total length of the tokens below a node, down to a depth. -/
def fullWidthAt (s : Store) : Nat → Value → m Number
  | 0, _ => throw (.misuse .endless)
  | depth + 1, v => do s.sumItems v (fullWidthAt s depth) 0 (← s.items v)

/-- The width of a node, down to a depth. -/
def widthAt (s : Store) : Nat → Value → m Number
  | 0, _ => throw (.misuse .endless)
  | depth + 1, v => do
    match ← s.items v with
    | [] => return 0
    | first :: rest =>
      let size ← match ← s.read v first with
        | .node child _ => widthAt s depth (.object child)
        | .token _ t => pure t.width
      s.sumItems v (s.fullWidthAt depth) (0 + size) rest

/-- Whether a value names a node. -/
def namesNode (s : Store) : Value → Bool
  | .object id => s.isNode id
  | _ => false

/-- The length of a node with its leading trivia; of any other value, what it gives as its length. -/
def fullWidth (s : Store) (v : Value) : m Value :=
  if s.namesNode v then Value.number <$> s.fullWidthAt (s.size + 1) v else Attempt.ofMisuse (s.member "length" v)

/-- The length of a node without its leading trivia; of any other value, what its fields come to. -/
def width (s : Store) (v : Value) : m Value :=
  if s.namesNode v then Value.number <$> s.widthAt (s.size + 1) v
  else Attempt.ofMisuse do (← TokenFields.ofValue s v).width s

/-! ## Ends -/

/-- The offset just after a node's last token. -/
def stop (s : Store) (v : Value) : m Value := do
  let first ← s.fullStart v
  Attempt.ofMisuse (s.plus (.number first) (← s.fullWidth v))

/-- The next node among items, if there is one before a failure. -/
def nextNode? (s : Store) (owner : Value) : List Item → m (Option ObjectId)
  | [] => return none
  | item :: rest => do
    match ← s.read owner item with
    | .node id _ => return some id
    | .token .. => nextNode? s owner rest

/-- The node that follows a given one among items; `none` if the given one is not there. -/
def nodeAfter? (s : Store) (owner v : Value) : List Item → m (Option (Option ObjectId))
  | [] => return none
  | item :: rest => do
    match ← s.read owner item with
    | .node child _ => if .object child = v then return some (← s.nextNode? owner rest) else nodeAfter? s owner v rest
    | .token .. => nodeAfter? s owner v rest

/-- Whether a value names a source file. -/
def namesSourceFile (s : Store) : Value → Bool
  | .object id => s.isSourceFile id
  | _ => false

/-- Where the span of a node ends: at the next node of the same parent, or else at the end-of-file token. Tokens that
follow the node do not end it. The span of a source file ends with its end-of-file token. -/
def endPosition (s : Store) (v : Value) : m Value := do
  let parent ← Attempt.ofMisuse (s.member "parent" v)
  if parent.truthy then
    match ← s.nodeAfter? parent v (← s.items parent) with
    | none => s.malformed .notAmongChildren v
    | some (some next) => return .number (← s.fullStart (.object next))
    | some none =>
      let endOfFile ← s.endOfFile v
      Attempt.ofMisuse (s.member "fullStart" endOfFile)
  else if s.namesSourceFile v then
    Attempt.ofMisuse do (← TokenFields.ofValue s (← s.member endOfFileSlot v)).stop s
  else s.detached v

/-! ## Texts -/

/-- The text of a token in a source that is text, and what stands for it in any other source. -/
def cut (s : Store) (source : Value) (t : Token) (ofText : Token → Text → Text)
    (ofFields : TokenFields → Store → Value → Except Misuse Data) : m Data :=
  match source with
  | .text whole => return .ofText (ofText t whole)
  | source => Attempt.ofMisuse (ofFields (.ofToken t) s source)

/-- The significant text of a token. -/
def tokenText (s : Store) (source : Value) (t : Token) : m Data :=
  s.cut source t Token.text fun f s source => f.text s source

/-- The text of a token with its leading trivia. -/
def tokenFullText (s : Store) (source : Value) (t : Token) : m Data :=
  s.cut source t Token.fullText fun f s source => f.fullText s source

/-- The leading trivia of a token. -/
def tokenTrivia (s : Store) (source : Value) (t : Token) : m Data :=
  s.cut source t Token.leadingTrivia fun f s source => f.leadingTrivia s source

/-- Puts the text of a token in front of those before it: in full, but as given if there are none. -/
def addText (s : Store) (first : Token → m Data) (source : Value) (texts : List Text) (t : Token) :
    m (List Text) := do
  let part ← if texts.isEmpty then first t else s.tokenFullText source t
  return (← Attempt.ofMisuse (part.text s)) :: texts

/-- The texts of the tokens below a node in a row, all but the first in full, and the first as given. -/
def tokenTexts (s : Store) (first : Token → m Data) (source v : Value) : m Text := do
  let texts ← s.foldElements (fun texts e => e.token?.elim (return texts) fun t => s.addText first source texts t.2) v []
  return texts.reverse.flatten

/-- The significant text of a node: its first token without leading trivia, all later ones in full. -/
def nodeText (s : Store) (v : Value) : m Text := do
  let source ← s.source v
  s.tokenTexts (s.tokenText source) source v

/-- The text of a node with its leading trivia. -/
def fullText (s : Store) (v : Value) : m Text := do
  let source ← s.source v
  s.tokenTexts (s.tokenFullText source) source v

/-- The leading trivia of a node's first token; nothing if it has none. -/
def leadingTrivia (s : Store) (v : Value) : m Data := do
  match ← s.firstToken v with
  | none => return .ofText []
  | some (_, t) => s.tokenTrivia (← s.source v) t

end LosslessSyntax.Store
