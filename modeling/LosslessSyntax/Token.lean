import LosslessSyntax.Value.Basic
import LosslessSyntax.Value.Members

/-!
# Tokens

A token is a kind and three offsets; it owns no text. `[fullStart, start)` is its leading trivia and
`[start, fullStart + length)` its significant text, in whatever source its offsets were computed against.
-/

namespace LosslessSyntax

/-- A lexical unit. The kind is a number in every token of a parser, but nothing depends on it. -/
structure Token where
  kind : Value
  fullStart : Number
  start : Number
  length : Number
  deriving DecidableEq

namespace Token

/-- The offset just after the token. -/
def stop (t : Token) : Number := t.fullStart + t.length

/-- The length of the significant text. -/
def width (t : Token) : Number := t.length - (t.start - t.fullStart)

/-- The length with leading trivia. -/
def fullWidth (t : Token) : Number := t.length

/-- Blanks and comments before the significant text. -/
def leadingTrivia (t : Token) (source : Text) : Text := source.slice t.fullStart t.start

def text (t : Token) (source : Text) : Text := source.slice t.start t.stop

def fullText (t : Token) (source : Text) : Text := source.slice t.fullStart t.stop

/-- A token as a record of five members. -/
def members (t : Token) : Members Value :=
  [("tag", .text "token"), ("kind", t.kind), ("fullStart", .number t.fullStart), ("start", .number t.start),
    ("length", .number t.length)]

end Token

end LosslessSyntax
