import LosslessSyntax.Calc.Lexeme

/-!
# Programs of the calculator language

    statement  := name '=' expression ';'?  |  expression ';'?  |  any other token, skipped
    expression := term (('+' | '-') term)*
    term       := primary (('*' | '/') primary)*
    primary    := number  |  name  |  '(' expression ')'?

The parser takes every list of tokens: operands, closing parentheses and semicolons may be missing. It looks at the
kinds of tokens only and carries the tokens themselves, of whatever type, into the tree.
-/

namespace LosslessSyntax.Calc

/-! ## Trees -/

variable {α β : Type}

/-- An expression; `missing` stands where an operand was expected and none found. -/
inductive Expr (α : Type) where
  | missing
  | number (value : α)
  | name (name : α)
  | paren (opening : α) (inner : Expr α) (closing : Option α)
  | binary (left : Expr α) (operator : α) (right : Expr α)
  deriving DecidableEq, Repr

namespace Expr

def isMissing : Expr α → Bool
  | .missing => true
  | _ => false

def map (f : α → β) : Expr α → Expr β
  | .missing => .missing
  | .number value => .number (f value)
  | .name token => .name (f token)
  | .paren opening inner closing => .paren (f opening) (inner.map f) (closing.map f)
  | .binary left operator right => .binary (left.map f) (f operator) (right.map f)

end Expr

inductive Statement (α : Type) where
  | assignment (name equals : α) (value : Expr α) (semicolon : Option α)
  | expression (expression : Expr α) (semicolon : Option α)
  | skipped (token : α)
  deriving DecidableEq, Repr

def Statement.map (f : α → β) : Statement α → Statement β
  | .assignment name equals value semicolon =>
    .assignment (f name) (f equals) (value.map f) (semicolon.map f)
  | .expression e semicolon => .expression (e.map f) (semicolon.map f)
  | .skipped token => .skipped (f token)

/-- A list of statements and the token at the end of the file. -/
structure Program (α : Type) where
  statements : List (Statement α)
  endOfFile : α
  deriving DecidableEq, Repr

/-! ## Parsing -/

section

variable (kind : α → Kind)

/-- Takes a token of the given kind, if there is one in front. -/
def takeKind (k : Kind) : List α → Option α × List α
  | t :: rest => if kind t = k then (some t, rest) else (none, t :: rest)
  | [] => (none, [])

/-- A primary, with `inner` for what stands in parentheses. -/
def primary (inner : List α → Expr α × List α) : List α → Expr α × List α
  | [] => (.missing, [])
  | t :: rest =>
    match kind t with
    | .number => (.number t, rest)
    | .identifier => (.name t, rest)
    | .openParen =>
      let (e, afterInner) := inner rest
      let (closing, after) := takeKind kind .closeParen afterInner
      (.paren t e closing, after)
    | _ => (.missing, t :: rest)

/-- Goes on with a chain of operators, to the left, for at most `count` of them. -/
def chainFrom (operand : List α → Expr α × List α) (isOperator : Kind → Bool) :
    Nat → Expr α → List α → Expr α × List α
  | 0, left, ts => (left, ts)
  | _, left, [] => (left, [])
  | count + 1, left, t :: rest =>
    if isOperator (kind t) then
      let (right, after) := operand rest
      chainFrom operand isOperator count (.binary left t right) after
    else (left, t :: rest)

/-- Operands with operators between them; nothing if the first operand is missing. -/
def chain (operand : List α → Expr α × List α) (isOperator : Kind → Bool) (ts : List α) : Expr α × List α :=
  let (left, after) := operand ts
  if left.isMissing then (.missing, after) else chainFrom kind operand isOperator after.length left after

def isMultiplicative : Kind → Bool
  | .star | .slash => true
  | _ => false

def isAdditive : Kind → Bool
  | .plus | .minus => true
  | _ => false

/-- An expression, with parentheses nested to a depth. -/
def expressionAt : Nat → List α → Expr α × List α
  | 0, ts => (.missing, ts)
  | depth + 1, ts =>
    chain kind (chain kind (primary kind (expressionAt depth)) isMultiplicative) isAdditive ts

/-- An expression. Each nesting takes a token. -/
def expression (ts : List α) : Expr α × List α := expressionAt kind (ts.length + 1) ts

/-- The statement that begins with `t`, which is no assignment: an expression, or a single token that is skipped. -/
def simpleStatement (t : α) (rest : List α) : Statement α × List α :=
  match kind t with
  | .identifier | .number | .openParen =>
    let (e, afterExpression) := expression kind (t :: rest)
    let (semicolon, after) := takeKind kind .semicolon afterExpression
    (.expression e semicolon, after)
  | _ => (.skipped t, rest)

/-- The statement that begins with `t`: an assignment if that is a name and an equals sign follows. -/
def statement (t : α) : List α → Statement α × List α
  | [] => simpleStatement kind t []
  | equals :: rest =>
    if kind t = .identifier ∧ kind equals = .equals then
      let (value, afterValue) := expression kind rest
      let (semicolon, after) := takeKind kind .semicolon afterValue
      (.assignment t equals value semicolon, after)
    else simpleStatement kind t (equals :: rest)

/-- The statements of at most `count` tokens. -/
def statementsFrom : Nat → List α → List (Statement α)
  | 0, _ => []
  | _, [] => []
  | count + 1, t :: rest =>
    let (first, after) := statement kind t rest
    first :: statementsFrom count after

/-- The statements of a list of tokens. Each takes a token at least. -/
def statements (ts : List α) : List (Statement α) := statementsFrom kind ts.length ts

end

/-- The program of a list of kinds, its tokens numbered from `base` on, with the end of the file last. -/
def Program.ofKinds (base : Nat) (kinds : List Kind) : Program Nat :=
  { statements := (Calc.statements Prod.fst (kinds.zipIdx base)).map (Statement.map Prod.snd)
    endOfFile := base + kinds.length }

end LosslessSyntax.Calc
