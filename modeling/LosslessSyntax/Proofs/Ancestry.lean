import LosslessSyntax.Proofs.Texts

/-!
# Parent chains and source files

The source file that a node belongs to can be found in two ways: it is recorded for the node, or it stands at the top of
its parent chain. After every run of regular calls both ways lead to the same file (`root_agrees`), and a node without
one has neither.

* `ParentChain` is the whole parent chain of an object; `Sound.parentChain` says that it ends, and that `ancestors` lists
  it.
* `Store.Whole` is what regular calls preserve: parents are returned nodes, and nothing but nodes and tokens stands in
  the slots of those. A call that is refused when children are linked already would leave parents that were never
  returned.
-/

namespace LosslessSyntax

namespace Store

variable {s t : Store} {made : List ObjectId} {n : ObjectId} {chain : List ObjectId}

/-! ## Parent chains -/

/-- The nodes above an object, the nearest first, up to one without a parent. -/
inductive ParentChain (s : Store) : ObjectId → List ObjectId → Prop
  | top {id : ObjectId} (parent : s.parent? id = none) : ParentChain s id []
  | up {id p : ObjectId} {chain : List ObjectId} (parent : s.parent? id = some p) (rest : ParentChain s p chain) :
      ParentChain s id (p :: chain)

theorem ParentChain.of_parent (h : s.ParentChain n chain) {p : ObjectId} (hp : s.parent? n = some p) :
    ∃ rest, chain = p :: rest ∧ s.ParentChain p rest := by
  cases h with
  | top parent => rw [hp] at parent; cases parent
  | up parent rest =>
    cases hp.symm.trans parent
    exact ⟨_, rfl, rest⟩

theorem ParentChain.unique (h : s.ParentChain n chain) {chain' : List ObjectId} (h' : s.ParentChain n chain') :
    chain = chain' := by
  induction h generalizing chain' with
  | top parent =>
    cases h' with
    | top => rfl
    | up parent' => rw [parent] at parent'; cases parent'
  | up parent _ ih =>
    obtain ⟨rest, rfl, hrest⟩ := h'.of_parent parent
    rw [ih hrest]

/-- Parents are younger than their children, so that no parent chain is cut off by a bound. -/
theorem Sound.parentChain (h : s.Sound made) (id : ObjectId) : s.ParentChain id (s.ancestors id) := by
  have hwithin : ∀ (steps : Nat) (id : Nat), s.size ≤ id + steps → s.ParentChain id (s.ancestorsWithin steps id) := by
    intro steps
    induction steps with
    | zero =>
      intro id hid
      refine .top ?_
      cases hparent : s.parent? id with
      | none => rfl
      | some p =>
        have := h.younger id p hparent
        omega
    | succ steps ih =>
      intro id hid
      rw [ancestorsWithin]
      cases hparent : s.parent? id with
      | none => exact .top hparent
      | some p => exact .up hparent (ih p (by have := (h.younger id p hparent).1; omega))
  exact hwithin s.size id (Nat.le_add_left _ _)

/-! ## What regular calls preserve -/

/-- Every parent was returned, and nothing but nodes and tokens stands in slots of returned nodes. -/
structure Whole (s : Store) (made : List ObjectId) : Prop where
  parents : ∀ c p, s.parent? c = some p → p ∈ made
  elements : ∀ p ∈ made, ∀ c, s.Child p c → s.isElement (.object c) = true

theorem whole_empty : Store.empty.Whole [] where
  parents c p hparent := by rw [parent?_empty] at hparent; cases hparent
  elements := nofun

namespace Whole

/-- What was whole stays so when other objects are linked to something that counts as returned. -/
theorem grown (h : s.Whole made) (hs : s.Sound made) {q : ObjectId} {cs made' : List ObjectId} (hg : s.Grown t q cs)
    (hsub : made ⊆ made') (hq : cs ≠ [] → q ∈ made') :
    (∀ c p, t.parent? c = some p → p ∈ made') ∧
      ∀ p ∈ made, ∀ c, t.Child p c → t.isElement (.object c) = true := by
  refine ⟨fun c p hparent => ?_, fun p hp c hchild => ?_⟩
  · rw [hg.parent c] at hparent
    split at hparent
    · rename_i hc
      cases hparent
      exact hq (List.ne_nil_of_mem hc.1)
    · exact hsub (h.parents c p hparent)
  · have hchild' := (hs.child_keeps hg.keeps hp c).mp hchild
    rw [hs.grounded.isElement_keeps hg.keeps (v := .object c) (hchild'.lt_size hs.closed)]
    exact h.elements p hp c hchild'

theorem untouched (h : s.Whole made) (hs : s.Sound made) (hu : s.Untouched t) : t.Whole made := by
  obtain ⟨hparents, helements⟩ := h.grown hs hu.grown (List.Subset.refl made) fun hne => absurd rfl hne
  exact ⟨hparents, helements⟩

theorem returned (h : s.Whole made) (hs : s.Sound made) {id : ObjectId} {n : Node} {rows : List Row}
    (hg : s.Grown t id (rows.flatMap Row.children)) (hshows : t.Shows id n rows)
    (hrows : ∀ x ∈ rows.flatMap Row.children, s.isElement (.object x) = true) : t.Whole (id :: made) := by
  obtain ⟨hparents, helements⟩ := h.grown hs hg (List.subset_cons_self id made) fun _ => List.mem_cons_self
  refine ⟨hparents, ?_⟩
  rintro p (_ | ⟨_, hp⟩) c hchild
  · have helement := hrows c (hshows.child.mp hchild)
    obtain ⟨x, hx, hlt⟩ := isElement_object helement
    cases hx
    rw [hs.grounded.isElement_keeps hg.keeps (v := .object c) hlt, helement]
  · exact helements p hp c hchild

end Whole

/-- Every store that can be reached by regular calls is whole. Calls that are refused leave it as it is. -/
theorem Reached.whole (h : Reached (fun s made c => c.Regular s made) s made) : s.Whole made := by
  induction h with
  | empty => exact whole_empty
  | between reached untouched ih => exact ih.untouched (reached.sound Call.Regular.harmless) untouched
  | returned reached given isAllowed run ih =>
    have hs := reached.sound Call.Regular.harmless
    rcases run_spec hs.grounded hs.closed given isAllowed.harmless with
      ⟨id, n, rows, t, hrun, _, hgrown, hshows, _, helements⟩ | ⟨failure, q, cs, t, hrun, _⟩
    · cases run.symm.trans hrun
      exact ih.returned hs hgrown hshows (helements isAllowed.unshadowed)
    · cases run.symm.trans hrun
  | refused reached given isAllowed run ih =>
    rw [reached.eq_of_refused given isAllowed run]
    exact ih

/-! ## Source files -/

/-- What is recorded for a node is what stands at the top of its parent chain. The induction is on the chain: a node has
the same record as its parent. -/
theorem Rooted.recorded_eq (h : s.Rooted made) (hw : s.Whole made) (hn : n ∈ made) (hchain : s.ParentChain n chain) :
    s.recorded? n = if s.isSourceFile (chain.getLastD n) then some (chain.getLastD n) else none := by
  induction hchain with
  | @top id parent =>
    show _ = if s.isSourceFile id then some id else none
    cases hfile : s.isSourceFile id with
    | true => exact h.file id hn hfile
    | false =>
      cases hroot : s.recorded? id with
      | none => rfl
      | some root =>
        rcases h.above id root hroot with hfile' | ⟨p, hparent⟩
        · rw [hfile] at hfile'
          cases hfile'
        · rw [parent] at hparent
          cases hparent
  | @up id p chain parent rest ih =>
    have hp := hw.parents id p parent
    rw [h.same id p parent hp, ih hp, List.getLastD_cons]

/-- The fault of a node that shows its slots names the kind that it was made of. -/
theorem Shows.detached {id : ObjectId} {n : Node} {rows : List Row} (h : s.Shows id n rows) {α : Type} :
    s.detached (α := α) (.object id) = .error (.ofTree (.detached (.text n.variant.name))) := by
  rw [Store.detached, h.kindName]
  rfl

/-- What is recorded for a node and the root that is found for it agree with its parent chain: both are the source file
at the top of the chain, and if there is none, nothing is recorded and the fault names the kind of the node. -/
structure FindsRoot (s : Store) (id : ObjectId) (n : Node) (chain : List ObjectId) : Prop where
  node : s.node? id = some n
  climbs : s.ParentChain id chain
  topmost : s.topmost id = chain.getLastD id
  recorded : s.recorded? id = if s.isSourceFile (chain.getLastD id) then some (chain.getLastD id) else none
  root : s.root (.object id) = if s.isSourceFile (chain.getLastD id) then .ok (chain.getLastD id)
    else .error (.ofTree (.detached (.text n.variant.name)))

theorem root_agrees (h : Reached (fun s made c => c.Regular s made) s made) (hn : n ∈ made) :
    ∃ node chain, s.FindsRoot n node chain := by
  have hs := h.sound Call.Regular.harmless
  have hr := h.rooted fun h => ⟨h.harmless, h.genuine⟩
  obtain ⟨node, rows, hshows, _⟩ := hs.shows n hn
  have hchain := hs.parentChain n
  have hrecorded := hr.recorded_eq h.whole hn hchain
  refine ⟨node, s.ancestors n, by rw [node?, hshows.object]; rfl, hchain, rfl, hrecorded, ?_⟩
  rw [recorded?] at hrecorded
  rw [root, hrecorded, topmost, hshows.detached]
  cases hfile : s.isSourceFile ((s.ancestors n).getLastD n) with
  | true => rfl
  | false =>
    simp only [hfile]
    rfl

end Store

namespace Sample

open Store

theorem root_agrees_nested : Reached (fun s made c => c.Regular s made) nested [25, 22, 20, 18] ∧
    (∃ node chain, nested.FindsRoot 18 node chain) ∧ nested.ancestors 18 = [22, 25] ∧ nested.recorded? 18 = some 25 :=
  ⟨regular_nested, root_agrees regular_nested (by decide), by decide +kernel⟩

theorem not_findsRoot {s : Store} {n : ObjectId} {chain : List ObjectId} (hchain : s.ParentChain n chain)
    (h : s.recorded? n ≠ if s.isSourceFile (chain.getLastD n) then some (chain.getLastD n) else none) :
    ¬ ∃ node chain, s.FindsRoot n node chain := by
  rintro ⟨node, chain', hfinds⟩
  obtain rfl := hchain.unique hfinds.climbs
  exact h hfinds.recorded

/-! ### Calls that are not regular -/

/-- A leaf, a node that extends the error and in a slot of which the leaf is put by a call that is refused, and a document
of that node. -/
def lifted : Store := ((documentCall letters [20] 15).run ((hookCall (.object 18)).run baited).2).2

theorem reached_lifted :
    Reached (fun s made c => c.Genuine s made ∧ c.input.Unshadowed s c.variant.layout) lifted [24, 20, 18] :=
  reached_baited.runAll [hookCall (.object 18), documentCall letters [20] 15] (.cons rfl (.cons rfl .nil))
    (by decide +kernel)

theorem parentChain_mimicked_lifted : mimicked.ParentChain 18 [22, 25] ∧ lifted.ParentChain 18 [] := by
  have hparents : mimicked.parent? 18 = some 22 ∧ mimicked.parent? 22 = some 25 ∧ mimicked.parent? 25 = none := by
    decide +kernel
  exact ⟨.up hparents.1 (.up hparents.2.1 (.top hparents.2.2)), .top (by decide +kernel)⟩

/-- A kind of source file with a slot with the name of the base behind the others. -/
def trap : Variant :=
  { self := 17, kind := 4, name := "Trap"
    layout := [("body", Layout.many), (endOfFileSlot, Layout.one), (baseName, Layout.one)], isSourceFile := true }

/-- Objects for a source file that cannot be linked to all it holds. -/
def traps : List Object := [.variant trap, .ofMembers trap.layout, shadow (.number 5)]

/-- Makes a source file of a leaf that is refused when the leaf is linked already. -/
def trapCall : Call :=
  .file { grammar with sourceFile := trap } letters
    (.ofMembers [("body", .many [.object 21]), (endOfFileSlot, .one (.object 15)), (baseName, .one (.object 19))])

def trapped : Store := (trapCall.run ((leafCall 12).run (stock.addAll traps)).2).2

theorem reached_traps (allowed : Store → List ObjectId → Call → Prop) : Reached allowed (stock.addAll traps) [] := by
  have hstock := (reached_stock fun s _ c => c.Harmless s).sound id
  refine .between (reached_stock _) (untouched_addAll hstock.grounded hstock.closed fun o ho => ?_)
  simp only [traps, List.mem_cons, List.not_mem_nil, or_false] at ho
  rcases ho with rfl | rfl | rfl <;> exact Object.refers_of_members nofun (by decide)

/-- None of the three conditions can be left out. With a second document of an object that extends a node, that document
is recorded for a node of the first one; with a slot that is set through an error, a document is recorded for a node that
has no parent; and with a value that cannot be linked, a node has a source file for parent that is not recorded. -/
theorem not_findsRoot_without_regular :
    (Reached (fun s _ c => c.Harmless s ∧ c.input.Unshadowed s c.variant.layout) mimicked [30, 25, 22, 20, 18] ∧
      ¬ ∃ node chain, mimicked.FindsRoot 18 node chain) ∧
    (Reached (fun s made c => c.Genuine s made ∧ c.input.Unshadowed s c.variant.layout) lifted [24, 20, 18] ∧
      ¬ ∃ node chain, lifted.FindsRoot 18 node chain) ∧
    Reached (fun s made c => c.Harmless s ∧ c.Genuine s made) trapped [21] ∧
      ¬ ∃ node chain, trapped.FindsRoot 21 node chain :=
  ⟨⟨unshadowed_mimicked, not_findsRoot parentChain_mimicked_lifted.1 (by decide +kernel)⟩,
    ⟨reached_lifted, not_findsRoot parentChain_mimicked_lifted.2 (by decide +kernel)⟩,
    (reached_traps _).runAll [leafCall 12, trapCall] (.cons rfl (.cons rfl .nil)) (by decide +kernel),
    not_findsRoot (.up (by decide +kernel : _ = some 24) (.top (by decide +kernel))) (by decide +kernel)⟩

end Sample

end LosslessSyntax
