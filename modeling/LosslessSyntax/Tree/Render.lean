import LosslessSyntax.Grammar.Define
import LosslessSyntax.Tree.Shape

/-!
# Rendering

Nodes and tokens as plain data. A node is `kind name ↦ slots`; a token is its kind name with its three offsets, or only
with the length of its text. The source buffer is never read.
-/

namespace LosslessSyntax

/-- What is written of a token: all offsets, or the length of the text. -/
inductive TokenFormat where
  | full
  | compact
  deriving DecidableEq, Repr

namespace TokenFormat

def word : TokenFormat → Text
  | .full => "full"
  | .compact => "compact"

def words : List (Text × TokenFormat) := [.full, .compact].map fun f : TokenFormat => (f.word, f)

end TokenFormat

namespace Store

variable {m : Type → Type} [Monad m] [Reports m]

/-- The token format that options ask for, if they do. Whatever is not the word for the compact one asks for the full
one. -/
def askedFormat? (s : Store) (options : Value) : Except Misuse (Option TokenFormat) :=
  match options with
  | .undefined => .ok none
  | options => do
    let asked ← s.member "tokenFormat" options
    if asked.isMissing then return none
    return some (if asked = .text TokenFormat.compact.word then .compact else .full)

/-! ## Tokens -/

/-- The name of a token kind; a kind without a name is written as it is. -/
def tokenKindName (s : Store) (grammar kind : Value) : Except Misuse Value := do
  let kinds ← s.registryFor (← s.member "tokenKinds" grammar) "nameOf"
  match kinds.nameOfValue? kind with
  | none | some .undefined | some .null => return .text (← s.text kind)
  | some name => return name

/-- Renders a value as a token. -/
def renderToken (s : Store) (grammar : Value) (format : TokenFormat) (v : Value) : Except Misuse Data := do
  let kind ← s.tokenKindName grammar (← s.member "kind" v)
  let fields ← TokenFields.ofValue s v
  match format with
  | .compact => return .record [("kind", .leaf kind), ("textLength", .leaf (← fields.width s))]
  | .full =>
    return .record [("kind", .leaf kind), ("fullStart", .leaf fields.fullStart), ("start", .leaf fields.start),
      ("length", .leaf fields.length)]

/-! ## Nodes -/

/-- Renders what stands in a slot, given how an element is rendered. Anything that is neither missing nor an element is
taken for a list. -/
def renderSlot (s : Store) (element : Value → m Data) (content : Value) : m Data := do
  if content.isMissing then return .leaf .null
  if s.isElement content then return ← element content
  let items ← (← Attempt.ofMisuse (s.mapped content)).toList.mapM fun
    | some value => element value
    | none => return .undefined
  return .list items

/-- Renders a value, nodes down to a depth. -/
def renderAt (s : Store) (grammar : Value) (format : TokenFormat) : Nat → Value → m Data
  | 0, _ => throw (.misuse .endless)
  | depth + 1, v => do
    let isNode := match v with
      | .object id => s.isNode id
      | _ => false
    if isNode then
      let slots ← (← s.contents v).mapM fun (name, content) =>
        return (name, ← s.renderSlot (renderAt s grammar format depth) content)
      let kind ← Attempt.ofMisuse do s.text (← s.kindName v)
      return .record [(kind, .record (slots.filter (·.1 ≠ baseName)))]
    else Attempt.ofMisuse (s.renderToken grammar format v)

/-- A node, a token or any other value as plain data. -/
def render (s : Store) (grammar : Value) (format : TokenFormat) (v : Value) : m Data :=
  s.renderAt grammar format (s.size + 1) v

/-- The rendering as indented JSON text. -/
def renderJson (s : Store) (grammar : Value) (format : TokenFormat) (v : Value) : m Text := do
  return (← Attempt.ofMisuse ((← s.render grammar format v).jsonText s .indented)).getD []

end Store

end LosslessSyntax
