import LosslessSyntax.Calc.Tree

/-!
# Sources of the calculator language

A source is a text as a rule. Any other value is looked at item by item, and of its items only blanks can be passed
over, so it has a tree only if it holds nothing else. That tree is an end-of-file token, and the value is its source.
-/

namespace LosslessSyntax.Calc

/-! ## Tokens -/

/-- Whether an item is a blank. -/
def isBlankItem : Value → Bool
  | .text [u] => isBlankUnit u
  | _ => false

/-- How far the blanks of a value go from an offset on, past at most so many of them. Any other item stops reading. -/
def blanksFrom (s : Store) (v : Value) : Nat → Nat → Except Misuse Nat
  | 0, offset => .ok offset
  | count + 1, offset => do
    if ← s.lessThan (.ofNat offset) (← s.member "length" v) then
      if isBlankItem (← s.member (Text.ofNat offset) v) then blanksFrom s v count (offset + 1) else throw .noOperation
    else return offset

/-- The end-of-file token of a value that holds nothing but blanks. A value whose length is no number has no end. -/
def endOfBlanks (s : Store) (v : Value) : Except Misuse Token := do
  let stop ← blanksFrom s v ((s.chainNames v).length + 1) 0
  if ← s.atMost (← s.member "length" v) (.ofNat stop) then
    return { kind := .ofNat Kind.endOfFile.id, fullStart := 0, start := .ofNat stop, length := .ofNat stop }
  else throw .endless

/-- The tokens of a source. -/
def tokens (s : Store) : Value → Except Misuse (List Token)
  | .text t => .ok ((lex t).toList.map Lexeme.token)
  | v => return [← endOfBlanks s v]

/-! ## Trees -/

variable {n m : Type → Type} [Monad n] [Monad m] [Tries n m] [Reports m]

/-- Parses any value into a tree of the store. -/
def parseValueM : Value → BuildingT n ObjectId
  | .text t =>
    match Source.ofText? t with
    | some source => parseM source
    | none => throw (.misuse .tooLong)
  | v => do
    let endOfFile ← BuildingT.add (.token (← BuildingT.read fun s => Attempt.ofMisuse (endOfBlanks s v)))
    let root ← plantM .empty { statements := [], endOfFile }
    BuildingT.change fun s => Attempt.ofMisuse (s.assignment root "source" v)
    return root

/-- Parses any value into a tree of the store, where nobody listens. -/
def parseValue (v : Value) : Building ObjectId := parseValueM v

end LosslessSyntax.Calc
