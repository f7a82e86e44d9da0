import LosslessSyntax.Proofs.Keeping
import Mathlib.Data.Fin.Pigeonhole
import Mathlib.Data.Fintype.EquivFin
import Mathlib.Logic.Relation

/-!
# Outlines

What is below a node is a graph of objects of the store, and every function that goes through it stops at a depth. An
outline is the same as a finite tree: the children of a node in document order, each node with the outline of what is
below it.

* `Store.Outlines` says that a node has an outline. Its rules follow the slots of the node in source order and the
  entries of each slot in order, leaving out missing ones.
* `Outlines.unique`, `Outlines.depth_le`: a node has one outline at most, and it is no deeper than the store has
  objects, so that no bounded traversal of it is cut off.
* `Walkable.exists_outline`: a node has an outline if its slots can be read, those of the nodes below as well, and
  none of these nodes is below itself.
-/

namespace LosslessSyntax

/-- The children of a node in document order: entries that are neither nodes nor tokens, with the failure of reading
them, tokens, and nodes with what is below them. -/
inductive Outline where
  | empty
  | failure (failure : Failure) (rest : Outline)
  | token (id : ObjectId) (token : Token) (rest : Outline)
  | node (id : ObjectId) (token : Option Token) (below rest : Outline)
  deriving DecidableEq

/-- How many nodes stand on the longest way down. -/
def Outline.depth : Outline → Nat
  | .empty => 0
  | .failure _ rest => rest.depth
  | .token _ _ rest => rest.depth
  | .node _ _ below rest => max (below.depth + 1) rest.depth

namespace Store

/-- Items of a node and their outline. -/
inductive Unfolds (s : Store) : ObjectId → List Item → Outline → Prop
  | empty {owner : ObjectId} : Unfolds s owner [] .empty
  | failure {owner : ObjectId} {slot : Text} {value : Value} {f : Failure} {items : List Item} {rest : Outline}
      (read : s.read (.object owner) (.value slot value) = .error f) (tail : Unfolds s owner items rest) :
      Unfolds s owner (.value slot value :: items) (.failure f rest)
  | token {owner id : ObjectId} {slot : Text} {value : Value} {t : Token} {items : List Item} {rest : Outline}
      (read : s.read (.object owner) (.value slot value) = .ok (.token id t)) (tail : Unfolds s owner items rest) :
      Unfolds s owner (.value slot value :: items) (.token id t rest)
  | node {owner id : ObjectId} {slot : Text} {value : Value} {t : Option Token} {items inner : List Item}
      {below rest : Outline} (read : s.read (.object owner) (.value slot value) = .ok (.node id t))
      (opened : s.items (.object id) = .ok inner) (inside : Unfolds s id inner below)
      (tail : Unfolds s owner items rest) :
      Unfolds s owner (.value slot value :: items) (.node id t below rest)

/-- A node has an outline. -/
def Outlines (s : Store) (id : ObjectId) (o : Outline) : Prop :=
  ∃ items, s.items (.object id) = .ok items ∧ s.Unfolds id items o

variable {s : Store}

/-! ## Reading entries -/

theorem malformed_ne_ok {α : Type} (cause : Malformation) (v : Value) (a : α) : s.malformed cause v ≠ .ok a := by
  intro h
  obtain ⟨kind, -, h⟩ := Attempt.bind_eq_ok h
  cases h

theorem read_value_eq_ok {owner : Value} {slot : Text} {value : Value} {e : Element} :
    s.read owner (.value slot value) = .ok e ↔ s.elementOf? value = some e := by
  simp only [read]
  cases he : s.elementOf? value with
  | none => simpa using malformed_ne_ok _ _ _
  | some e' => simp [Attempt.pure_eq_ok]

theorem isNode_of_elementOf? {value : Value} {id : ObjectId} {t : Option Token}
    (h : s.elementOf? value = some (.node id t)) : value = .object id ∧ s.isNode id = true ∧ s.token? id = t := by
  cases value with
  | object id' =>
    simp only [elementOf?] at h
    split at h
    · rename_i hn
      cases h
      exact ⟨rfl, hn, rfl⟩
    · cases ht : s.token? id' <;> rw [ht] at h <;> cases h
  | _ => cases h

theorem isNode_of_read {owner : Value} {item : Item} {id : ObjectId} {t : Option Token}
    (h : s.read owner item = .ok (.node id t)) : s.isNode id = true := by
  cases item with
  | value slot value => exact (isNode_of_elementOf? (read_value_eq_ok.mp h)).2.1
  | unreadable m => cases h

/-- Everything that has an outline can be read. -/
theorem Unfolds.value {owner : ObjectId} {items : List Item} {o : Outline} (h : s.Unfolds owner items o) {item : Item}
    (hitem : item ∈ items) : ∃ slot value, item = .value slot value := by
  induction h with
  | empty => cases hitem
  | failure _ _ ih => exact (List.mem_cons.mp hitem).elim (fun h => ⟨_, _, h⟩) ih
  | token _ _ ih => exact (List.mem_cons.mp hitem).elim (fun h => ⟨_, _, h⟩) ih
  | node _ _ _ _ _ ih => exact (List.mem_cons.mp hitem).elim (fun h => ⟨_, _, h⟩) ih

/-! ## Finding outlines -/

/-- The outline of items, if it is found for the nodes among them. -/
def outlineItems? (s : Store) (below : ObjectId → Option Outline) (owner : ObjectId) : List Item → Option Outline
  | [] => some .empty
  | .unreadable _ :: _ => none
  | .value slot value :: items => do
    let rest ← s.outlineItems? below owner items
    match s.read (.object owner) (.value slot value) with
    | .error f => return .failure f rest
    | .ok (.token id t) => return .token id t rest
    | .ok (.node id t) => return .node id t (← below id) rest

/-- The outline of a node, if its depth is below a bound. -/
def outline? (s : Store) : Nat → ObjectId → Option Outline
  | 0, _ => none
  | depth + 1, id => do s.outlineItems? (s.outline? depth) id (← (s.items (.object id)).toOption)

theorem unfolds_of_outlineItems? {below : ObjectId → Option Outline}
    (hbelow : ∀ {id o}, below id = some o → s.Outlines id o) {owner : ObjectId} {items : List Item} {o : Outline}
    (h : s.outlineItems? below owner items = some o) : s.Unfolds owner items o := by
  induction items generalizing o with
  | nil => cases h; exact .empty
  | cons item items ih =>
    cases item with
    | unreadable m => cases h
    | value slot value =>
      obtain ⟨rest, hrest, h⟩ := Option.bind_eq_some_iff.mp h
      have htail := ih hrest
      cases hread : s.read (.object owner) (.value slot value) with
      | error f =>
        rw [hread] at h
        cases h
        exact .failure hread htail
      | ok e =>
        rw [hread] at h
        cases e with
        | token id t => cases h; exact .token hread htail
        | node id t =>
          obtain ⟨inside, hinside, h⟩ := Option.bind_eq_some_iff.mp h
          obtain ⟨inner, hopen, hinner⟩ := hbelow hinside
          cases h
          exact .node hread hopen hinner htail

theorem outlines_of_outline? {depth : Nat} {id : ObjectId} {o : Outline} (h : s.outline? depth id = some o) :
    s.Outlines id o := by
  induction depth generalizing id o with
  | zero => cases h
  | succ depth ih =>
    obtain ⟨items, hitems, hunfold⟩ := Option.bind_eq_some_iff.mp h
    exact ⟨items, Attempt.eq_ok hitems, unfolds_of_outlineItems? ih hunfold⟩

/-! ## One outline at most -/

theorem Unfolds.unique {owner : ObjectId} {items : List Item} {o o' : Outline} (h : s.Unfolds owner items o)
    (h' : s.Unfolds owner items o') : o = o' := by
  induction h generalizing o' with
  | empty => cases h'; rfl
  | failure read tail ih =>
    cases h' with
    | failure read' tail' => rw [read] at read'; cases read'; rw [ih tail']
    | token read' _ => rw [read] at read'; cases read'
    | node read' _ _ _ => rw [read] at read'; cases read'
  | token read tail ih =>
    cases h' with
    | failure read' _ => rw [read] at read'; cases read'
    | token read' tail' => rw [read] at read'; cases read'; rw [ih tail']
    | node read' _ _ _ => rw [read] at read'; cases read'
  | node read opened below tail ihb ih =>
    cases h' with
    | failure read' _ => rw [read] at read'; cases read'
    | token read' _ => rw [read] at read'; cases read'
    | node read' opened' below' tail' =>
      rw [read] at read'; cases read'
      rw [opened] at opened'; cases opened'
      rw [ihb below', ih tail']

theorem Outlines.unique {id : ObjectId} {o o' : Outline} (h : s.Outlines id o) (h' : s.Outlines id o') : o = o' := by
  obtain ⟨items, hi, hu⟩ := h
  obtain ⟨items', hi', hu'⟩ := h'
  rw [hi] at hi'
  cases hi'
  exact hu.unique hu'

/-! ## Depth -/

/-- On the way down to the deepest node the outlines have every smaller depth. -/
theorem Unfolds.exists_depth {owner : ObjectId} {items : List Item} {o : Outline} (h : s.Unfolds owner items o)
    {d : Nat} (hd : d < o.depth) : ∃ id below, id < s.size ∧ s.Outlines id below ∧ below.depth = d := by
  induction h with
  | empty => cases hd
  | failure _ _ ih => exact ih hd
  | token _ _ ih => exact ih hd
  | @node _ id _ _ _ _ _ below _ read opened unfolds _ ihb ih =>
    simp only [Outline.depth] at hd
    rcases Nat.lt_or_ge d below.depth with hlt | hge
    · exact ihb hlt
    · rcases Nat.lt_or_eq_of_le hge with hgt | heq
      · exact ih (by omega)
      · exact ⟨id, below, lt_size_of_isNode (isNode_of_read read), ⟨_, opened, unfolds⟩, heq⟩

/-- Nodes with outlines of different depths are different, so there are no more depths than objects. -/
theorem Unfolds.depth_le {owner : ObjectId} {items : List Item} {o : Outline} (h : s.Unfolds owner items o) :
    o.depth ≤ s.size := by
  choose id below hlt hout hdepth using fun d : Fin o.depth => h.exists_depth d.isLt
  refine Fin.le_of_injective (fun d => ⟨id d, hlt d⟩) fun d d' heq => ?_
  have hid : id d = id d' := congrArg Fin.val heq
  have hbelow : below d = below d' := (hout d).unique (hid ▸ hout d')
  exact Fin.ext (by rw [← hdepth d, ← hdepth d', hbelow])

theorem Outlines.depth_le {id : ObjectId} {o : Outline} (h : s.Outlines id o) : o.depth ≤ s.size := by
  obtain ⟨_, _, hu⟩ := h
  exact hu.depth_le

/-! ## Nodes with an outline -/

/-- A node whose slots can be read: they are known, and there is something to read them from. -/
structure Readable (s : Store) (id : ObjectId) : Prop where
  slotNames : ∃ names, s.slotNames (.object id) = .ok names
  slots : (s.lookup id "children").isMissing = false

/-- A node stands in a slot of another one. -/
def ChildNode (s : Store) (parent child : ObjectId) : Prop :=
  ∃ items slot value t, s.items (.object parent) = .ok items ∧ Item.value slot value ∈ items ∧
    s.elementOf? value = some (.node child t)

/-- A node is another one or stands below it. -/
def Reaches (s : Store) : ObjectId → ObjectId → Prop := Relation.ReflTransGen s.ChildNode

/-- The graph of nodes below a node: all of them can be read and none is below itself. What stands in their slots may
be anything. -/
structure Walkable (s : Store) (id : ObjectId) : Prop where
  readable : ∀ m, s.Reaches id m → s.Readable m
  acyclic : ∀ m, s.Reaches id m → ¬ Relation.TransGen s.ChildNode m m

theorem Readable.slotContent {id : ObjectId} (h : s.Readable id) (slot : Text) :
    ∃ content, s.slotContent (.object id) slot = .ok content := by
  have hs := h.slots
  simp only [Store.slotContent, member]
  cases hc : s.lookup id "children" with
  | undefined => rw [hc] at hs; cases hs
  | null => rw [hc] at hs; cases hs
  | _ => exact ⟨_, rfl⟩

theorem slotItems_of_content {v content : Value} {slot : Text} (h : s.slotContent v slot = .ok content) :
    s.slotItems v slot = (s.slotEntries content).map fun entry => .value slot entry.2 := by
  rw [slotItems, h]

/-- The slots of a value that are listed are those that its variant names, each with what stands in it. -/
theorem forall₂_of_contents {v : Value} {slots : Members Value} (h : s.contents v = .ok slots) : ∃ names,
    s.slotNames v = .ok names ∧
      List.Forall₂ (fun name slot => slot.1 = name ∧ s.slotContent v name = .ok slot.2) names slots := by
  obtain ⟨names, hnames, h⟩ := Attempt.bind_eq_ok h
  refine ⟨names, hnames, (Attempt.forall₂_of_mapM h).imp fun name slot hslot => ?_⟩
  obtain ⟨content, hcontent, hslot⟩ := Attempt.bind_eq_ok hslot
  cases hslot
  exact ⟨rfl, Attempt.ofMisuse_eq_ok hcontent⟩

/-- The items of a value are what is met in its slots. -/
theorem items_of_contents {v : Value} {slots : Members Value} (h : s.contents v = .ok slots) :
    s.items v = .ok (slots.flatMap fun slot => (s.slotEntries slot.2).map fun entry => .value slot.1 entry.2) := by
  obtain ⟨names, hnames, hslots⟩ := forall₂_of_contents h
  rw [Store.items, hnames, Attempt.ok_bind]
  refine congrArg Except.ok ?_
  clear h hnames
  induction hslots with
  | nil => rfl
  | cons hslot _ ih =>
    obtain ⟨rfl, hcontent⟩ := hslot
    rw [List.flatMap_cons, List.flatMap_cons, slotItems_of_content hcontent, ih]

theorem Readable.items {id : ObjectId} (h : s.Readable id) :
    ∃ items, s.items (.object id) = .ok items ∧ ∀ item ∈ items, ∃ slot value, item = .value slot value := by
  obtain ⟨names, hn⟩ := h.slotNames
  refine ⟨names.flatMap (s.slotItems (.object id)), by rw [Store.items, hn]; rfl, fun item hitem => ?_⟩
  obtain ⟨slot, _, hitem⟩ := List.mem_flatMap.mp hitem
  obtain ⟨content, hc⟩ := h.slotContent slot
  rw [slotItems_of_content hc] at hitem
  obtain ⟨entry, _, rfl⟩ := List.mem_map.mp hitem
  exact ⟨slot, entry.2, rfl⟩

theorem ChildNode.lt_size {p c : ObjectId} (h : s.ChildNode p c) : c < s.size := by
  obtain ⟨_, _, _, _, _, _, he⟩ := h
  exact lt_size_of_isNode (isNode_of_elementOf? he).2.1

theorem Walkable.child {id c : ObjectId} (h : s.Walkable id) (hc : s.ChildNode id c) : s.Walkable c :=
  ⟨fun m hm => h.readable m (.head hc hm), fun m hm => h.acyclic m (.head hc hm)⟩

/-- Items have an outline if the nodes among them do. -/
theorem exists_unfolds (s : Store) (owner : ObjectId) {items : List Item}
    (hvalue : ∀ item ∈ items, ∃ slot value, item = .value slot value)
    (hnode : ∀ slot value id t, Item.value slot value ∈ items → s.elementOf? value = some (.node id t) →
      ∃ below, s.Outlines id below) : ∃ o, s.Unfolds owner items o := by
  induction items with
  | nil => exact ⟨_, .empty⟩
  | cons item items ih =>
    obtain ⟨rest, hrest⟩ := ih (fun i hi => hvalue i (List.mem_cons_of_mem _ hi))
      fun slot value id t hi => hnode slot value id t (List.mem_cons_of_mem _ hi)
    obtain ⟨slot, value, rfl⟩ := hvalue item List.mem_cons_self
    cases hr : s.read (.object owner) (.value slot value) with
    | error f => exact ⟨_, .failure hr hrest⟩
    | ok e =>
      cases e with
      | token id t => exact ⟨_, .token hr hrest⟩
      | node id t =>
        obtain ⟨below, inner, hopen, hbelow⟩ := hnode slot value id t List.mem_cons_self (read_value_eq_ok.mp hr)
        exact ⟨_, .node hr hopen hbelow hrest⟩

/-- Below a node that is not below itself, the relation of a node to its children is well founded: there are finitely
many objects. -/
theorem Walkable.acc {id : ObjectId} (h : s.Walkable id) : Acc (fun c p => s.ChildNode p c) id := by
  let Below := { m // m < s.size ∧ s.Reaches id m }
  let r : Below → Below → Prop := fun c p => Relation.TransGen s.ChildNode p.1 c.1
  have : Finite Below :=
    .of_injective (fun m => (⟨m.1, m.2.1⟩ : Fin s.size)) fun _ _ heq => Subtype.ext (congrArg Fin.val heq)
  have : IsTrans Below r := ⟨fun _ _ _ hab hbc => hbc.trans hab⟩
  have : Std.Irrefl r := ⟨fun m hm => h.acyclic m.1 m.2.2 hm⟩
  have hacc : ∀ m : Below, Acc (fun c p => s.ChildNode p c) m.1 := by
    intro m
    induction (Finite.wellFounded_of_trans_of_irrefl r).apply m with
    | intro p _ ih =>
      refine ⟨_, fun c hc => ?_⟩
      exact ih ⟨c, hc.lt_size, p.2.2.tail hc⟩ (.single hc)
  exact ⟨_, fun c hc => hacc ⟨c, hc.lt_size, .single hc⟩⟩

theorem Walkable.exists_outline {id : ObjectId} (h : s.Walkable id) : ∃ o, s.Outlines id o := by
  induction h.acc with
  | intro p _ ih =>
    obtain ⟨items, hi, hvalue⟩ := (h.readable p .refl).items
    obtain ⟨o, ho⟩ := s.exists_unfolds p hvalue fun slot value c t hmem he =>
      have hc : s.ChildNode p c := ⟨items, slot, value, t, hi, hmem, he⟩
      ih c hc (h.child hc)
    exact ⟨o, items, hi, ho⟩

end Store

end LosslessSyntax
