import LosslessSyntax.Calc.Program
import LosslessSyntax.Grammar.Define
import LosslessSyntax.Tree.Build

/-!
# Syntax trees of the calculator language

`Calc.grammar` is the grammar of the language and `Calc.parse` builds the tree of a source in a store, through the same
checks as every other tree.
-/

namespace LosslessSyntax.Calc

/-! ## Grammar -/

/-- Node kinds. -/
inductive NodeKind where
  | sourceFile
  | assignmentStatement
  | expressionStatement
  | binaryExpression
  | parenthesizedExpression
  | nameExpression
  | numberLiteral
  | skippedTokens
  deriving DecidableEq, Repr

namespace NodeKind

/-- All kinds, in the order of their ids. -/
def all : List NodeKind :=
  [.sourceFile, .assignmentStatement, .expressionStatement, .binaryExpression, .parenthesizedExpression,
    .nameExpression, .numberLiteral, .skippedTokens]

def id : NodeKind → Nat
  | .sourceFile => 0
  | .assignmentStatement => 1
  | .expressionStatement => 2
  | .binaryExpression => 3
  | .parenthesizedExpression => 4
  | .nameExpression => 5
  | .numberLiteral => 6
  | .skippedTokens => 7

def name : NodeKind → Text
  | .sourceFile => "SourceFile"
  | .assignmentStatement => "AssignmentStatement"
  | .expressionStatement => "ExpressionStatement"
  | .binaryExpression => "BinaryExpression"
  | .parenthesizedExpression => "ParenthesizedExpression"
  | .nameExpression => "NameExpression"
  | .numberLiteral => "NumberLiteral"
  | .skippedTokens => "SkippedTokens"

def layout : NodeKind → Layout
  | .sourceFile => [("statements", Layout.many), (endOfFileSlot, Layout.one)]
  | .assignmentStatement =>
    [("name", Layout.one), ("equals", Layout.one), ("value", Layout.one), ("semicolon", Layout.one)]
  | .expressionStatement => [("expression", Layout.one), ("semicolon", Layout.one)]
  | .binaryExpression => [("left", Layout.one), ("operator", Layout.one), ("right", Layout.one)]
  | .parenthesizedExpression => [("openParen", Layout.one), ("expression", Layout.one), ("closeParen", Layout.one)]
  | .nameExpression => [("name", Layout.one)]
  | .numberLiteral => [("value", Layout.one)]
  | .skippedTokens => [("tokens", Layout.many)]

end NodeKind

/-- The number of the grammar, which is the first object of every session after the grounds. -/
def grammarId : ObjectId := Store.empty.size

def NodeKind.variant (k : NodeKind) : Variant :=
  { self := Grammar.variantId grammarId k.id, kind := k.id, name := k.name, layout := k.layout
    isSourceFile := k = .sourceFile }

def definition : Definition :=
  { tokens := Kind.all.map fun k => .text k.name
    nodes := NodeKind.all.map fun k => (k.name, k.layout)
    sourceFile := .text NodeKind.sourceFile.name
    endOfFile := .text Kind.endOfFile.name }

def grammar : Grammar :=
  { self := grammarId
    tokenKinds := ⟨Kind.all.map fun k => (.text k.name, k.id)⟩
    nodeKinds := ⟨NodeKind.all.map fun k => (.text k.name, k.id)⟩
    variants := NodeKind.all.map NodeKind.variant
    sourceFile := NodeKind.sourceFile.variant
    endOfFileKind := Kind.endOfFile.id }

theorem define_definition : (Grammar.define .empty grammarId definition).toOption = some grammar := by
  decide +kernel

/-! ## Building

A program whose tokens are objects of a store becomes a tree of that store, children before parents. -/

variable {n m : Type → Type} [Monad n] [Monad m] [Tries n m] [Reports m]

def makeM (k : NodeKind) (slots : Members SlotValue) : BuildingT n Value :=
  return .object (← Store.createM k.variant (.ofMembers slots))

def tokenSlot (id : ObjectId) : SlotValue := .one (.object id)

def optionalTokenSlot (id : Option ObjectId) : SlotValue := .one (id.elim .null .object)

def plantExprM : Expr ObjectId → BuildingT n Value
  | .missing => return .null
  | .number value => makeM .numberLiteral [("value", tokenSlot value)]
  | .name name => makeM .nameExpression [("name", tokenSlot name)]
  | .paren opening inner closing => do
    let inner ← plantExprM inner
    makeM .parenthesizedExpression
      [("openParen", tokenSlot opening), ("expression", .one inner), ("closeParen", optionalTokenSlot closing)]
  | .binary left operator right => do
    let left ← plantExprM left
    let right ← plantExprM right
    makeM .binaryExpression [("left", .one left), ("operator", tokenSlot operator), ("right", .one right)]

def plantStatementM : Statement ObjectId → BuildingT n Value
  | .assignment name equals value semicolon => do
    let value ← plantExprM value
    makeM .assignmentStatement
      [("name", tokenSlot name), ("equals", tokenSlot equals), ("value", .one value),
        ("semicolon", optionalTokenSlot semicolon)]
  | .expression e semicolon => do
    let e ← plantExprM e
    makeM .expressionStatement [("expression", .one e), ("semicolon", optionalTokenSlot semicolon)]
  | .skipped token => makeM .skippedTokens [("tokens", .many [.object token])]

def plantM (source : Source) (p : Program ObjectId) : BuildingT n ObjectId := do
  let statements ← p.statements.mapM plantStatementM
  Store.createSourceFileM grammar source
    (.ofMembers [("statements", .many statements), (endOfFileSlot, tokenSlot p.endOfFile)])

/-! ## Parsing a source -/

/-- Parses a source into a tree of the store. -/
def parseM (source : Source) : BuildingT n ObjectId := do
  let lexing := lex source.text
  let size ← BuildingT.read fun s => return s.size
  BuildingT.update fun s => s.addAll (lexing.toList.map fun l => .token l.token)
  plantM source (Program.ofKinds size (lexing.lexemes.map Lexeme.kind))

/-! ## Parsing where nobody listens -/

def make (k : NodeKind) (slots : Members SlotValue) : Building Value := makeM k slots

def plantExpr (e : Expr ObjectId) : Building Value := plantExprM e

def plantStatement (st : Statement ObjectId) : Building Value := plantStatementM st

def plant (source : Source) (p : Program ObjectId) : Building ObjectId := plantM source p

/-- Parses a source into a tree of the store. -/
def parse (source : Source) : Building ObjectId := parseM source

end LosslessSyntax.Calc
