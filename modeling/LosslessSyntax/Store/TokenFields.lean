import LosslessSyntax.Store.Sequence

/-!
# Objects read as tokens

Any object that says it is a token and has numbers for its three offsets is one, whoever made it. What a token is asked
for can also be read from any other value, along its chain of prototypes; then the fields are whatever stands there, and
an operation can fail on them by a TypeError. A source is a text as a rule; of a list, parts are lists.
-/

namespace LosslessSyntax

namespace Store

/-- The token that the members of an object make. -/
def tokenOfMembers? (s : Store) (id : ObjectId) : Option Token :=
  match s.lookup id "fullStart", s.lookup id "start", s.lookup id "length" with
  | .number fullStart, .number start, .number length => some { kind := s.lookup id "kind", fullStart, start, length }
  | _, _, _ => none

/-- The token that an object is. -/
def token? (s : Store) (id : ObjectId) : Option Token :=
  match s.object? id with
  | none => none
  | some (.token t) => some t
  | some _ => if s.lookup id "tag" = .text "token" then s.tokenOfMembers? id else none

end Store

/-- What stands for the offsets of a token in some value. -/
structure TokenFields where
  fullStart : Value
  start : Value
  length : Value

namespace TokenFields

def ofToken (t : Token) : TokenFields := ⟨.number t.fullStart, .number t.start, .number t.length⟩

/-- Reads the fields of a value. -/
def ofValue (s : Store) (v : Value) : Except Misuse TokenFields :=
  return ⟨← s.member "fullStart" v, ← s.member "start" v, ← s.member "length" v⟩

/-- The offset just after the token. -/
def stop (s : Store) (f : TokenFields) : Except Misuse Value := s.plus f.fullStart f.length

/-- The length of the significant text. -/
def width (s : Store) (f : TokenFields) : Except Misuse Value := do s.minus f.length (← s.minus f.start f.fullStart)

/-- Blanks and comments before the significant text. -/
def leadingTrivia (s : Store) (f : TokenFields) (source : Value) : Except Misuse Data :=
  s.part source f.fullStart f.start

def text (s : Store) (f : TokenFields) (source : Value) : Except Misuse Data := do
  s.part source f.start (← f.stop s)

def fullText (s : Store) (f : TokenFields) (source : Value) : Except Misuse Data := do
  s.part source f.fullStart (← f.stop s)

end TokenFields

end LosslessSyntax
