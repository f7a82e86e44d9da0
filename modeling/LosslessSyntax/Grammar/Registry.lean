import LosslessSyntax.Check.Decoder
import LosslessSyntax.Fault
import LosslessSyntax.Store.Sequence

/-!
# Building registries

A registry is built from pairs of a name and an id, in order, and refused at the first pair that repeats an earlier
name or id.
-/

namespace LosslessSyntax.Registry

/-- Adds a pair unless its name or its id is taken; the name is looked at first. -/
def add (r : Registry) (s : Store) (pair : Value × Nat) : Attempt Registry :=
  if (r.idOf? pair.1).isSome then do
    let name ← Attempt.ofMisuse (s.text pair.1)
    throw (.fault (.invalidRegistry (.duplicateName name)))
  else
    match r.nameOf? pair.2 with
    | some holder => do
      let first ← Attempt.ofMisuse (s.text holder)
      let second ← Attempt.ofMisuse (s.text pair.1)
      throw (.fault (.invalidRegistry (.sharedId first second pair.2)))
    | none => .ok ⟨r.entries ++ [pair]⟩

def ofPairs (s : Store) (pairs : List (Value × Nat)) : Attempt Registry :=
  pairs.foldlM (fun r pair => r.add s pair) empty

/-- The registry whose ids are the positions of the names. -/
def ofNames (s : Store) (names : List Value) : Attempt Registry := ofPairs s names.zipIdx

/-- The registry of the elements that are met when a list of names is mapped; at a gap there is no name. -/
def ofElements (s : Store) (names : Sequence) : Attempt Registry := do
  let r ← names.entries.foldlM (fun r (place, name) =>
    if place = r.size then r.add s (name, place) else throw (.misuse .noMembers)) empty
  if r.size = names.length then return r else throw (.misuse .noMembers)

/-- The registry of a list of names. -/
def ofList (s : Store) (v : Value) : Attempt Registry := do ofElements s (← Attempt.ofMisuse (s.mapped v))

/-- The registry of an unchecked table from names to ids. -/
def ofTable (s : Store) (v : Value) : Attempt Registry := do
  match ← Attempt.ofMisuse (Decoder.table (· ≠ []) Decoder.natural s v).run with
  | .ok pairs => ofPairs s (pairs.map fun (name, id) => (.text name, id))
  | .error issues => throw (.fault (.invalidRegistry (.badShape issues)))

end LosslessSyntax.Registry
