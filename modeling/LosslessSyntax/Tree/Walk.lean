import LosslessSyntax.Tree.Items

/-!
# Walks

A walk hands out the children, or everything below a node, one at a time. It is a stack of cursors, the innermost
first, and can be pulled at any time: after it has ended, after a failure, and after the store has changed.

A node that was handed out is entered at the next pull. A predicate, if there is one, is asked about each node once,
when it is about to be entered, and keeps the walk out of those for which it answers no. A pull fails with the
predicate, and the walk then stays out of the node as well.

A pull does not fail but hands out the failure, with the walk after it. So `Walk.nextM` works in a monad `n` that tries
to read in another one, in which that can fail. `Walk.next` is a pull where nobody listens.
-/

namespace LosslessSyntax

/-- Which elements a walk hands out. -/
inductive Accept where
  | all
  | nodes
  | tokens
  deriving DecidableEq, Repr

namespace Accept

def takes : Accept → Element → Bool
  | .all, _ => true
  | .nodes, e => e.node?.isSome
  | .tokens, e => e.token?.isSome

end Accept

/-- Decides which nodes are entered. -/
abbrev Predicate := ObjectId → Attempt Bool

/-- What one pull comes to. -/
inductive Outcome where
  | yield (element : Element)
  | done
  | failure (failure : Failure)

/-- A walk between two pulls. A shallow walk stays among the children of its node. -/
structure Walk where
  accept : Accept
  deep : Bool
  stack : List Cursor
  pending : Option ObjectId := none

/-- The questions asked during a pull with their answers, what it came to, and the walk after it. -/
structure Pull where
  asked : List (ObjectId × Bool)
  outcome : Outcome
  walk : Walk

/-- The failure that a pull comes to, if it does. -/
def Outcome.failure? : Outcome → Option Failure
  | .failure f => some f
  | _ => none

def Pull.failure? (p : Pull) : Option Failure := p.outcome.failure?

namespace Walk

variable {n m : Type → Type} [Monad n] [Monad m] [Tries n m] [Reports m]

/-- A walk over the children of a node. -/
def children (s : Store) (accept : Accept) (v : Value) : m Walk :=
  return { accept, deep := false, stack := [← s.openCursor v] }

/-- A walk over everything below a node. -/
def descendants (s : Store) (accept : Accept) (v : Value) : m Walk :=
  return { accept, deep := true, stack := [← s.openCursor v] }

/-- What a search found, if anything, with the cursors at which to go on. -/
structure Search where
  asked : List (ObjectId × Bool) := []
  found : Option Outcome := none
  stack : List Cursor := []

/-- Asks about a node; without a predicate the answer is yes and no question. -/
def ask (predicate : Option (ObjectId → m Bool)) (id : ObjectId) : m (Bool × List (ObjectId × Bool)) :=
  match predicate with
  | none => return (true, [])
  | some p => do
    let answer ← p id
    return (answer, [(id, answer)])

/-- Searches items in order for the first one to hand out, entering nodes that are not handed out themselves. -/
def searchItemsM (s : Store) (accept : Accept) (predicate : Option (ObjectId → m Bool)) (enter : ObjectId → n Search)
    (owner : Value) : List (Item × Cursor) → n Search
  | [] => return {}
  | (item, after) :: rest => do
    match ← Tries.attempt (s.read owner item) with
    | .error f => return { found := some (.failure f), stack := [after] }
    | .ok e =>
      if accept.takes e then return { found := some (.yield e), stack := [after] }
      else
        match e with
        | .token .. => searchItemsM s accept predicate enter owner rest
        | .node id _ =>
          match ← Tries.attempt (ask predicate id) with
          | .error f => return { found := some (.failure f), stack := [after] }
          | .ok (answer, question) =>
            let inner ← (if answer then enter id else pure {})
            match inner.found with
            | some outcome => return ⟨question ++ inner.asked, some outcome, inner.stack ++ [after]⟩
            | none =>
              let later ← searchItemsM s accept predicate enter owner rest
              return { later with asked := question ++ inner.asked ++ later.asked }

/-- Searches below a node, down to a depth. -/
def searchBelowM (s : Store) (accept : Accept) (predicate : Option (ObjectId → m Bool)) : Nat → ObjectId → n Search
  | 0, _ => return { found := some (.failure (.misuse .endless)) }
  | depth + 1, id => do
    match ← Tries.attempt (s.openCursor (.object id)) with
    | .error f => return { found := some (.failure f) }
    | .ok cursor =>
      searchItemsM s accept predicate (searchBelowM s accept predicate depth) cursor.node (s.itemsFrom cursor)

/-- Searches from the innermost cursor outwards. -/
def searchStackM (s : Store) (accept : Accept) (predicate : Option (ObjectId → m Bool)) (enter : ObjectId → n Search) :
    List Cursor → n Search
  | [] => return {}
  | cursor :: outer => do
    let inner ← searchItemsM s accept predicate enter cursor.node (s.itemsFrom cursor)
    match inner.found with
    | some outcome => return ⟨inner.asked, some outcome, inner.stack ++ outer⟩
    | none =>
      let later ← searchStackM s accept predicate enter outer
      return { later with asked := inner.asked ++ later.asked }

/-- The cursors of a walk with the node handed out last entered, if the predicate agrees, and the question. -/
def enterPendingM (s : Store) (predicate : Option (ObjectId → m Bool)) (w : Walk) :
    n (List (ObjectId × Bool) × Attempt (List Cursor)) :=
  match w.pending with
  | none => return ([], .ok w.stack)
  | some id => do
    match ← Tries.attempt (ask predicate id) with
    | .error f => return ([], .error f)
    | .ok (answer, question) =>
      let opened : m (List Cursor) := if answer then (· :: w.stack) <$> s.openCursor (.object id) else return w.stack
      return (question, ← Tries.attempt opened)

/-- The node that is to be entered at the next pull. -/
def toEnter (w : Walk) : Outcome → Option ObjectId
  | .yield e => if w.deep then e.node? else none
  | _ => none

/-- Pulls once. -/
def nextM (s : Store) (predicate : Option (ObjectId → m Bool)) (w : Walk) : n Pull := do
  match ← w.enterPendingM s predicate with
  | (question, .error f) => return ⟨question, .failure f, { w with pending := none }⟩
  | (question, .ok stack) =>
    let enter := if w.deep then searchBelowM s w.accept predicate (s.size + 1) else fun _ => pure {}
    let result ← searchStackM s w.accept (if w.deep then predicate else none) enter stack
    let outcome := result.found.getD .done
    return {
      asked := question ++ result.asked
      outcome
      walk := { w with stack := result.stack, pending := w.toEnter outcome } }

/-! ## Walking where nobody listens -/

/-- Searches items in order for the first one to hand out, entering nodes that are not handed out themselves. -/
def searchItems (s : Store) (accept : Accept) (predicate : Option Predicate) (enter : ObjectId → Search)
    (owner : Value) (items : List (Item × Cursor)) : Search :=
  Id.run (searchItemsM s accept predicate enter owner items)

/-- Searches below a node, down to a depth. -/
def searchBelow (s : Store) (accept : Accept) (predicate : Option Predicate) (depth : Nat) (id : ObjectId) : Search :=
  Id.run (searchBelowM s accept predicate depth id)

/-- Searches from the innermost cursor outwards. -/
def searchStack (s : Store) (accept : Accept) (predicate : Option Predicate) (enter : ObjectId → Search)
    (stack : List Cursor) : Search :=
  Id.run (searchStackM s accept predicate enter stack)

/-- The cursors of a walk with the node handed out last entered, if the predicate agrees, and the question. -/
def enterPending (s : Store) (predicate : Option Predicate) (w : Walk) :
    List (ObjectId × Bool) × Attempt (List Cursor) :=
  Id.run (w.enterPendingM s predicate)

/-- Pulls once. -/
def next (s : Store) (predicate : Option Predicate) (w : Walk) : Pull := Id.run (w.nextM s predicate)

section

variable (s : Store) (accept : Accept) (predicate : Option Predicate) (enter : ObjectId → Search) (owner : Value)

theorem searchItems_cons (item : Item) (after : Cursor) (rest : List (Item × Cursor)) :
    searchItems s accept predicate enter owner ((item, after) :: rest) =
      match s.read owner item with
      | .error f => { found := some (.failure f), stack := [after] }
      | .ok e =>
        if accept.takes e then { found := some (.yield e), stack := [after] }
        else
          match e with
          | .token .. => searchItems s accept predicate enter owner rest
          | .node id _ =>
            match ask predicate id with
            | .error f => { found := some (.failure f), stack := [after] }
            | .ok (answer, question) =>
              let inner := if answer then enter id else {}
              match inner.found with
              | some outcome => ⟨question ++ inner.asked, some outcome, inner.stack ++ [after]⟩
              | none =>
                let later := searchItems s accept predicate enter owner rest
                { later with asked := question ++ inner.asked ++ later.asked } := rfl

theorem searchBelow_succ (depth : Nat) (id : ObjectId) :
    searchBelow s accept predicate (depth + 1) id =
      match s.openCursor (.object id) with
      | .error f => { found := some (.failure f) }
      | .ok cursor =>
        searchItems s accept predicate (searchBelow s accept predicate depth) cursor.node (s.itemsFrom cursor) := rfl

theorem searchStack_cons (cursor : Cursor) (outer : List Cursor) :
    searchStack s accept predicate enter (cursor :: outer) =
      let inner := searchItems s accept predicate enter cursor.node (s.itemsFrom cursor)
      match inner.found with
      | some outcome => ⟨inner.asked, some outcome, inner.stack ++ outer⟩
      | none =>
        let later := searchStack s accept predicate enter outer
        { later with asked := inner.asked ++ later.asked } := rfl

theorem enterPending_eq (w : Walk) :
    w.enterPending s predicate =
      match w.pending with
      | none => ([], .ok w.stack)
      | some id =>
        match ask predicate id with
        | .error f => ([], .error f)
        | .ok (answer, question) =>
          (question, if answer then (s.openCursor (.object id)).map (· :: w.stack) else .ok w.stack) := rfl

theorem next_eq (w : Walk) :
    w.next s predicate =
      match w.enterPending s predicate with
      | (question, .error f) => ⟨question, .failure f, { w with pending := none }⟩
      | (question, .ok stack) =>
        let enter := if w.deep then searchBelow s w.accept predicate (s.size + 1) else fun _ => {}
        let result := searchStack s w.accept (if w.deep then predicate else none) enter stack
        let outcome := result.found.getD .done
        { asked := question ++ result.asked
          outcome
          walk := { w with stack := result.stack, pending := w.toEnter outcome } } := rfl

end

end Walk

end LosslessSyntax
