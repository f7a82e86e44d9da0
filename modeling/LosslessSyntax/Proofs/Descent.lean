import LosslessSyntax.Proofs.Ancestry
import Mathlib.Data.List.Find

/-!
# Walking down and climbing up

A walk over everything below a node and the parent chains of what it hands out tell the same tree. After every run of
regular calls (`walk_agrees`): the walk ends without a failure and hands out nothing twice; a node is handed out if and
only if the walk began at a node of its parent chain; and the nodes that the walk is in when it hands out a node are
that chain, up to the node where the walk began.

* `Walk.On`: the cursors of a walk stand in nodes each of which is a child of the next one. One pull keeps it
  (`next_on`), and so do any number of pulls (`after_on`).
* `Unfolds.nodup`: nothing stands twice below a node, since nothing has two parents and no node is below itself.
-/

namespace LosslessSyntax

/-! ## The nodes that a walk is in -/

/-- A cursor among the entries of a node. -/
structure Cursor.Of (s : Store) (p : ObjectId) (c : Cursor) : Prop where
  node : c.node = .object p
  slots : ∃ names, s.slotNames (.object p) = .ok names ∧ c.slots ⊆ names

namespace Store

variable {s : Store}

/-- Every item from a place on stands in one of the slots that are left, and so does what comes after it. -/
theorem mem_itemsOfSlots {v : Value} {slots : List Text} {index : Nat} {item : Item} {after : Cursor}
    (h : (item, after) ∈ s.itemsOfSlots v slots index) :
    after.node = v ∧ after.slots ⊆ slots ∧ ∃ slot ∈ slots, item ∈ s.slotItems v slot := by
  induction slots generalizing index with
  | nil => cases h
  | cons name names ih =>
    have hrest : ∀ {index : Nat}, (item, after) ∈ s.itemsOfSlots v names index →
        after.node = v ∧ after.slots ⊆ name :: names ∧ ∃ slot ∈ name :: names, item ∈ s.slotItems v slot := by
      intro index h
      obtain ⟨hnode, hsub, slot, hslot, hitem⟩ := ih h
      exact ⟨hnode, List.subset_cons_of_subset _ hsub, slot, List.mem_cons_of_mem _ hslot, hitem⟩
    cases hc : s.slotContent v name with
    | error m =>
      rw [itemsOfSlots, hc] at h
      cases List.mem_singleton.mp h
      exact ⟨rfl, List.Subset.refl _, name, List.mem_cons_self, by rw [slotItems, hc]; exact List.mem_singleton_self _⟩
    | ok content =>
      have hentry : ∀ entry ∈ s.slotEntries content, Item.value name entry.2 ∈ s.slotItems v name := fun entry hentry => by
        rw [slotItems_of_content hc]
        exact List.mem_map.mpr ⟨entry, hentry, rfl⟩
      cases hl : s.isList content with
      | false =>
        rw [itemsOfSlots_single names index hc hl] at h
        rcases List.mem_append.mp h with h | h
        · split at h
          · cases h
          · rename_i hmissing
            cases List.mem_singleton.mp h
            refine ⟨rfl, List.subset_cons_self _ _, name, List.mem_cons_self, hentry (0, content) ?_⟩
            rw [slotEntries_of_not_isList hl, if_neg hmissing]
            exact List.mem_singleton_self _
        · exact hrest h
      | true =>
        rw [itemsOfSlots_list names index hc hl] at h
        rcases List.mem_append.mp h with h | h
        · obtain ⟨entry, hmem, heq⟩ := List.mem_map.mp h
          cases heq
          exact ⟨rfl, List.Subset.refl _, name, List.mem_cons_self, hentry entry (List.mem_filter.mp hmem).1⟩
        · exact hrest h

/-- What a cursor of a node leads to stands in that node. -/
theorem childNode_of_itemsFrom {p : ObjectId} {c after : Cursor} {item : Item} (h : c.Of s p)
    (hmem : (item, after) ∈ s.itemsFrom c) :
    after.Of s p ∧ ∀ m t, s.read (.object p) item = .ok (.node m t) → s.ChildNode p m := by
  obtain ⟨names, hnames, hsub⟩ := h.slots
  obtain ⟨hnode, hslots, slot, hslot, hitem⟩ := mem_itemsOfSlots hmem
  refine ⟨⟨hnode.trans h.node, names, hnames, List.Subset.trans hslots hsub⟩, fun m t hread => ?_⟩
  cases item with
  | unreadable misuse => cases hread
  | value name value =>
    refine ⟨names.flatMap (s.slotItems (.object p)), name, value, t, by rw [items, hnames]; rfl, ?_,
      read_value_eq_ok.mp hread⟩
    exact List.mem_flatMap.mpr ⟨slot, hsub hslot, h.node ▸ hitem⟩

theorem openCursor_of {p : ObjectId} {c : Cursor} (h : s.openCursor (.object p) = .ok c) : c.Of s p := by
  obtain ⟨names, hnames, h⟩ := Attempt.bind_eq_ok h
  cases h
  exact ⟨rfl, names, hnames, List.Subset.refl names⟩

end Store

namespace Walk

variable {s : Store} {n p : ObjectId} {ids : List ObjectId} {stack : List Cursor} {w : Walk}

/-- The walk after so many pulls. -/
def after (s : Store) (predicate : Option Predicate) : Nat → Walk → Walk
  | 0, w => w
  | count + 1, w => after s predicate count (w.next s predicate).walk

theorem after_succ (s : Store) (predicate : Option Predicate) (count : Nat) (w : Walk) :
    w.after s predicate (count + 1) = ((w.after s predicate count).next s predicate).walk := by
  induction count generalizing w with
  | zero => rfl
  | succ count ih => exact ih _

theorem getElem?_pulls (s : Store) (predicate : Option Predicate) {i count : Nat} (hi : i < count) (w : Walk) :
    ((w.pulls s predicate count)[i]?).map Prod.snd = some ((w.after s predicate i).next s predicate).outcome := by
  induction count generalizing i w with
  | zero => cases hi
  | succ count ih =>
    cases i with
    | zero => rfl
    | succ i => exact ih (Nat.lt_of_succ_lt_succ hi) _

/-- Cursors in nodes each of which is a child of the next one: the innermost node, and those around it up to the node
where the walk began. -/
inductive Inside (s : Store) (n : ObjectId) : List Cursor → ObjectId → List ObjectId → Prop
  | start {c : Cursor} (cursor : c.Of s n) : Inside s n [c] n []
  | child {c : Cursor} {outer : List Cursor} {q p : ObjectId} {ids : List ObjectId} (cursor : c.Of s q)
      (stands : s.ChildNode p q) (outside : Inside s n outer p ids) : Inside s n (c :: outer) q (p :: ids)

namespace Inside

theorem nodes (h : Inside s n stack p ids) : stack.map Cursor.node = (p :: ids).map .object := by
  induction h with
  | start cursor => rw [List.map_singleton, cursor.node]; rfl
  | child cursor _ _ ih => rw [List.map_cons, cursor.node, ih]; rfl

theorem ends (h : Inside s n stack p ids) : ∃ before, p :: ids = before ++ [n] := by
  induction h with
  | start _ => exact ⟨[], rfl⟩
  | @child _ _ q _ _ _ _ _ ih =>
    obtain ⟨before, hbefore⟩ := ih
    exact ⟨q :: before, by rw [hbefore]; rfl⟩

end Inside

/-- A walk over everything goes no further than the first item, whatever that is. -/
theorem searchItems_all (s : Store) (predicate : Option Predicate) (enter : ObjectId → Search) (owner : Value) (item : Item)
    (after : Cursor) (rest : List (Item × Cursor)) :
    searchItems s .all predicate enter owner ((item, after) :: rest) =
      { found := some (match s.read owner item with
          | .error f => .failure f
          | .ok e => .yield e)
        stack := [after] } := by
  rw [searchItems_cons]
  cases s.read owner item <;> rfl

/-- A search through the cursors ends with all of them, or it stays inside, in the parent of the node that it found. -/
theorem searchStack_inside (h : Inside s n stack p ids) (predicate : Option Predicate) (enter : ObjectId → Search) :
    ((searchStack s .all predicate enter stack).found = none ∧ (searchStack s .all predicate enter stack).stack = []) ∨
      ∃ outcome q around, (searchStack s .all predicate enter stack).found = some outcome ∧
        Inside s n (searchStack s .all predicate enter stack).stack q around ∧
        ∀ m, outcome.node? = some m → s.ChildNode q m := by
  have hfound : ∀ {q : ObjectId} {item : Item}, (∀ m t, s.read (.object q) item = .ok (.node m t) → s.ChildNode q m) →
      ∀ m, (match (s.read (.object q) item : Attempt Element) with
        | .error f => Outcome.failure f
        | .ok e => .yield e).node? = some m → s.ChildNode q m := by
    intro q item hchild m hm
    cases hread : s.read (.object q) item with
    | error f => rw [hread] at hm; cases hm
    | ok e =>
      rw [hread] at hm
      cases e with
      | token id t => cases hm
      | node id t =>
        cases hm
        exact hchild _ t hread
  induction h with
  | @start c cursor =>
    rw [searchStack_cons]
    cases hitems : s.itemsFrom c with
    | nil => exact .inl ⟨rfl, rfl⟩
    | cons first rest =>
      obtain ⟨item, after⟩ := first
      obtain ⟨hafter, hchild⟩ := Store.childNode_of_itemsFrom cursor (hitems ▸ List.mem_cons_self)
      rw [searchItems_all, cursor.node]
      exact .inr ⟨_, n, [], rfl, .start hafter, hfound hchild⟩
  | @child c outer q p ids cursor stands outside ih =>
    rw [searchStack_cons]
    cases hitems : s.itemsFrom c with
    | nil => exact ih
    | cons first rest =>
      obtain ⟨item, after⟩ := first
      obtain ⟨hafter, hchild⟩ := Store.childNode_of_itemsFrom cursor (hitems ▸ List.mem_cons_self)
      rw [searchItems_all, cursor.node]
      exact .inr ⟨_, q, p :: ids, rfl, .child hafter stands outside, hfound hchild⟩

/-- A walk over everything below a node, between two pulls: it has ended, or it is inside, and the node to be entered is
a child of the one that it is in. -/
structure On (s : Store) (n : ObjectId) (w : Walk) : Prop where
  accept : w.accept = .all
  deep : w.deep = true
  inside : w.pending = none ∧ w.stack = [] ∨
    ∃ p ids, Inside s n w.stack p ids ∧ ∀ m, w.pending = some m → s.ChildNode p m

theorem on_descendants (h : descendants s .all (.object n) = .ok w) : On s n w := by
  obtain ⟨c, hopen, h⟩ := Attempt.bind_eq_ok h
  cases h
  exact ⟨rfl, rfl, .inr ⟨n, [], .start (Store.openCursor_of hopen), fun _ hm => by cases hm⟩⟩

/-- The cursors with the node to be entered. -/
theorem On.enterPending (h : On s n w) :
    (∃ question f, w.enterPending s none = (question, .error f)) ∨
      ∃ stack, w.enterPending s none = ([], .ok stack) ∧
        (stack = [] ∨ ∃ p ids, Inside s n stack p ids) := by
  rcases h.inside with ⟨hpending, hstack⟩ | ⟨p, ids, hinside, hchild⟩
  · exact .inr ⟨w.stack, by rw [Walk.enterPending_eq, hpending], .inl hstack⟩
  · cases hpending : w.pending with
    | none => exact .inr ⟨w.stack, by rw [Walk.enterPending_eq, hpending], .inr ⟨p, ids, hinside⟩⟩
    | some m =>
      have henter : w.enterPending s none = ([], (s.openCursor (.object m)).map (· :: w.stack)) := by
        rw [Walk.enterPending_eq, hpending]
        rfl
      rw [henter]
      cases hopen : s.openCursor (.object m) with
      | error f => exact .inl ⟨[], f, rfl⟩
      | ok c => exact .inr ⟨c :: w.stack, rfl, .inr ⟨m, p :: ids, .child (Store.openCursor_of hopen) (hchild m hpending)
          hinside⟩⟩

/-- One pull keeps the walk inside. -/
theorem next_on (h : On s n w) : On s n (w.next s none).walk := by
  rcases h.enterPending with ⟨question, f, henter⟩ | ⟨stack, henter, hstack⟩
  · rw [next_eq, henter]
    refine ⟨h.accept, h.deep, ?_⟩
    rcases h.inside with ⟨_, hnil⟩ | ⟨p, ids, hinside, _⟩
    · exact .inl ⟨rfl, hnil⟩
    · exact .inr ⟨p, ids, hinside, fun _ hm => by cases hm⟩
  · rw [next_eq, henter]
    simp only [h.deep, if_true, h.accept]
    refine ⟨rfl, rfl, ?_⟩
    rcases hstack with rfl | ⟨p, ids, hinside⟩
    · exact .inl ⟨rfl, rfl⟩
    · rcases searchStack_inside hinside none (searchBelow s .all none (s.size + 1)) with
        ⟨hnone, hnil⟩ | ⟨outcome, q, around, hsome, hinside', hchild⟩
      · exact .inl ⟨by rw [hnone]; rfl, hnil⟩
      · refine .inr ⟨q, around, hinside', fun m hm => hchild m ?_⟩
        rw [hsome] at hm
        cases outcome with
        | yield e => simpa [toEnter, h.deep, Outcome.node?] using hm
        | done => cases hm
        | failure f => cases hm

theorem after_on (h : On s n w) (count : Nat) : On s n (w.after s none count) := by
  induction count with
  | zero => exact h
  | succ count ih => rw [after_succ]; exact next_on ih

/-- The node that a pull hands out is to be entered at the next one. -/
theorem pending_of_yield (h : On s n w) {m : ObjectId} {t : Option Token}
    (hyield : (w.next s none).outcome = .yield (.node m t)) : (w.next s none).walk.pending = some m := by
  rcases h.enterPending with ⟨question, f, henter⟩ | ⟨stack, henter, _⟩
  · rw [next_eq, henter] at hyield
    cases hyield
  · rw [next_eq, henter] at hyield ⊢
    simp only [h.deep, if_true] at hyield ⊢
    rw [hyield]
    simp [toEnter, Element.node?, h.deep]

/-- Where a walk hands out a node, it is inside its parent. -/
theorem inside_of_lists {es : List Element} (hlists : ∀ count, w.pulls s none count =
      (es.map (fun e => ([], Outcome.yield e)) ++ List.replicate count ([], Outcome.done)).take count)
    (h : On s n w) {i : Nat} {m : ObjectId} {t : Option Token} (hi : es[i]? = some (.node m t)) :
    ∃ p ids, Inside s n (w.after s none (i + 1)).stack p ids ∧ s.ChildNode p m := by
  have hlt : i < es.length := (List.getElem?_eq_some_iff.mp hi).1
  have hyield : ((w.after s none i).next s none).outcome = .yield (.node m t) := by
    have hpull := getElem?_pulls s none (Nat.lt_succ_self i) w
    rw [hlists, List.getElem?_take_of_lt (Nat.lt_succ_self i), List.getElem?_append_left (by simpa using hlt),
      List.getElem?_map, hi] at hpull
    exact (Option.some.inj hpull).symm
  have hpending := pending_of_yield (after_on h i) hyield
  rw [← after_succ] at hpending
  rcases (after_on h (i + 1)).inside with ⟨hnone, _⟩ | ⟨p, ids, hinside, hchild⟩
  · rw [hpending] at hnone
    cases hnone
  · exact ⟨p, ids, hinside, hchild m hpending⟩

end Walk

/-! ## What stands below returned nodes -/

namespace Store

variable {s : Store} {made : List ObjectId} {n m p q x : ObjectId} {o : Outline}

/-- A node with the outline of what is below it, among the elements of an outline that it is an entry of. -/
theorem Unfolds.elements_of_child {owner : ObjectId} {items : List Item} (h : s.Unfolds owner items o) {slot : Text}
    {value : Value} {c : ObjectId} {t : Option Token} (hitem : .value slot value ∈ items)
    (he : s.elementOf? value = some (.node c t)) :
    ∃ below, s.Outlines c below ∧ .node c t ∈ o.elements ∧ below.elements ⊆ o.elements := by
  induction h with
  | empty => cases hitem
  | failure read tail ih =>
    rcases List.mem_cons.mp hitem with heq | hmem
    · cases heq
      rw [read_value_eq_ok.mpr he] at read
      cases read
    · exact ih hmem
  | token read tail ih =>
    rcases List.mem_cons.mp hitem with heq | hmem
    · cases heq
      rw [read_value_eq_ok.mpr he] at read
      cases read
    · obtain ⟨below, hbelow, hmem, hsub⟩ := ih hmem
      exact ⟨below, hbelow, List.mem_cons_of_mem _ hmem, List.subset_cons_of_subset _ hsub⟩
  | @node owner id slot value t items inner below rest read opened inside tail ihb ih =>
    rcases List.mem_cons.mp hitem with heq | hmem
    · cases heq
      rw [read_value_eq_ok.mpr he] at read
      cases read
      exact ⟨below, ⟨inner, opened, inside⟩, List.mem_cons_self,
        List.subset_cons_of_subset _ (List.subset_append_left _ _)⟩
    · obtain ⟨below', hbelow, hmem, hsub⟩ := ih hmem
      exact ⟨below', hbelow, List.mem_cons_of_mem _ (List.mem_append_right _ hmem),
        List.subset_cons_of_subset _ (List.subset_append_of_subset_right _ hsub)⟩

/-- Every node that is reached from a node by children is in its outline. -/
theorem Outlines.mem_elements (h : s.Outlines n o) (hm : Relation.TransGen s.ChildNode n m) :
    ∃ t, .node m t ∈ o.elements := by
  induction hm using Relation.TransGen.head_induction_on generalizing o with
  | single hc =>
    obtain ⟨items, hopen, hu⟩ := h
    obtain ⟨items', slot, value, t, hitems, hmem, he⟩ := hc
    cases hopen.symm.trans hitems
    obtain ⟨_, _, hin, _⟩ := hu.elements_of_child hmem he
    exact ⟨t, hin⟩
  | head hc _ ih =>
    obtain ⟨items, hopen, hu⟩ := h
    obtain ⟨items', slot, value, t, hitems, hmem, he⟩ := hc
    cases hopen.symm.trans hitems
    obtain ⟨below, hbelow, _, hsub⟩ := hu.elements_of_child hmem he
    obtain ⟨t', hin⟩ := ih hbelow
    exact ⟨t', hsub hin⟩

/-- An object stands in a slot of a node or of one below it. -/
def Under (s : Store) (n x : ObjectId) : Prop := ∃ q, s.Reaches n q ∧ s.Child q x

/-- Some of the items of a returned node, with the children that stand there. -/
structure Holds (s : Store) (made : List ObjectId) (owner : ObjectId) (items : List Item)
    (entries : List (Text × ObjectId)) : Prop where
  known : owner ∈ made
  items : items = entries.map fun entry => .value entry.1 (.object entry.2)
  child : ∀ c ∈ entries.map Prod.snd, s.Child owner c

theorem Holds.of_cons {owner : ObjectId} {item : Item} {items : List Item} {entries : List (Text × ObjectId)}
    (h : s.Holds made owner (item :: items) entries) : ∃ slot id rest, entries = (slot, id) :: rest ∧
      item = .value slot (.object id) ∧ s.Child owner id ∧ s.Holds made owner items rest := by
  obtain ⟨⟨slot, id⟩, rest, rfl, hitem, hitems⟩ := List.map_eq_cons_iff.mp h.items.symm
  exact ⟨slot, id, rest, rfl, hitem.symm, h.child id List.mem_cons_self, h.known, hitems.symm,
    fun c hc => h.child c (List.mem_cons_of_mem _ hc)⟩

/-- The items of a returned node are its children, none of them twice. -/
theorem Sound.holds (hs : s.Sound made) (hp : p ∈ made) : ∃ items entries, s.items (.object p) = .ok items ∧
    s.Holds made p items entries ∧ (entries.map Prod.snd).Nodup := by
  obtain ⟨node, rows, hshows, hnodup⟩ := hs.shows p hp
  obtain ⟨entries, hitems, hchildren⟩ := hshows.exists_entries hs.grounded
  exact ⟨_, entries, hitems, ⟨hp, rfl, fun x hx => hshows.child.mpr (hchildren ▸ hx)⟩, hchildren ▸ hnodup⟩

theorem id_of_elementOf? {id : ObjectId} {e : Element} (h : s.elementOf? (.object id) = some e) : e.id = id := by
  rw [elementOf?] at h
  split at h
  · cases h
    rfl
  · obtain ⟨t, _, rfl⟩ := Option.map_eq_some_iff.mp h
    rfl

theorem exists_elementOf? {v : Value} (h : s.isElement v = true) : ∃ e, s.elementOf? v = some e := by
  obtain ⟨id, rfl, _⟩ := isElement_object h
  rw [elementOf?]
  split
  · exact ⟨_, rfl⟩
  · rename_i hnode
    rw [isElement, Bool.eq_false_of_not_eq_true hnode, Bool.false_or] at h
    obtain ⟨t, ht⟩ := Option.isSome_iff_exists.mp h
    exact ⟨_, by rw [ht]; rfl⟩

/-- An object is one of some children of a node, or stands below one of them. -/
def Among (s : Store) (owner : ObjectId) (ids : List ObjectId) (x : ObjectId) : Prop :=
  x ∈ ids ∨ ∃ c ∈ ids, s.ChildNode owner c ∧ s.Under c x

theorem Among.cons {ids : List ObjectId} (id : ObjectId) (h : s.Among p ids x) : s.Among p (id :: ids) x :=
  h.imp (List.mem_cons_of_mem id) fun ⟨c, hc, hunder⟩ => ⟨c, List.mem_cons_of_mem id hc, hunder⟩

theorem Among.under {ids : List ObjectId} (h : s.Among p ids x) (hids : ∀ c ∈ ids, s.Child p c) : s.Under p x := by
  rcases h with hx | ⟨c, _, hc, q, hreach, hx⟩
  · exact ⟨p, .refl, hids x hx⟩
  · exact ⟨q, .head hc hreach, hx⟩

section

variable (hs : s.Sound made) (hr : s.Rooted made)
include hs hr

/-- What is reached from a returned node was returned, and made no later; its parent chain leads back. -/
theorem of_reaches (hn : n ∈ made) (h : s.Reaches n q) :
    q ∈ made ∧ (q : Nat) ≤ n ∧ Relation.ReflTransGen (fun c p => s.parent? c = some p) q n := by
  induction h with
  | refl => exact ⟨hn, Nat.le_refl _, .refl⟩
  | tail _ hc ih =>
    obtain ⟨hp, hle, hclimb⟩ := ih
    obtain ⟨hknown, hparent⟩ := hr.of_childNode hs hp hc
    exact ⟨hknown, Nat.le_trans (Nat.le_of_lt (hs.younger _ _ hparent).1) hle, .head hparent hclimb⟩

/-- What stands below a child does not stand in the node itself. -/
theorem not_child_of_under {c : ObjectId} (hp : p ∈ made) (hc : s.ChildNode p c) (h : s.Under c x) : ¬ s.Child p x := by
  intro hx
  obtain ⟨q, hreach, hchild⟩ := h
  obtain ⟨hknown, hparent⟩ := hr.of_childNode hs hp hc
  obtain ⟨hq, hle, _⟩ := of_reaches hs hr hknown hreach
  obtain rfl := hs.single q hq p hp x hchild hx
  exact absurd (hs.younger c q hparent).1 (Nat.not_lt_of_le hle)

/-- Nothing stands below two children of a node: one of them would be above the other, and so the node below itself. -/
theorem eq_of_under {c d : ObjectId} (hp : p ∈ made) (hc : s.ChildNode p c) (hd : s.ChildNode p d) (h : s.Under c x)
    (h' : s.Under d x) : c = d := by
  have hunique : Relator.RightUnique fun c p => s.parent? c = some p := fun _ _ _ hb hb' => Option.some.inj (hb ▸ hb')
  have habove : ∀ {c d : ObjectId}, s.ChildNode p c → s.ChildNode p d →
      Relation.ReflTransGen (fun c p => s.parent? c = some p) c d → c = d := by
    intro c d hc hd hclimb
    rcases Relation.ReflTransGen.cases_head hclimb with heq | ⟨p', hparent, hclimb⟩
    · exact heq
    · cases hparent.symm.trans (hr.of_childNode hs hp hc).2
      have hle : ∀ {y : ObjectId}, Relation.ReflTransGen (fun c p => s.parent? c = some p) p y → (p : Nat) ≤ y := by
        intro y hy
        induction hy with
        | refl => exact Nat.le_refl _
        | tail _ hparent ih => exact Nat.le_trans ih (Nat.le_of_lt (hs.younger _ _ hparent).1)
      exact absurd (hs.younger d p (hr.of_childNode hs hp hd).2).1 (Nat.not_lt_of_le (hle hclimb))
  obtain ⟨q, hreach, hchild⟩ := h
  obtain ⟨q', hreach', hchild'⟩ := h'
  obtain ⟨hq, _, hclimb⟩ := of_reaches hs hr (hr.of_childNode hs hp hc).1 hreach
  obtain ⟨hq', _, hclimb'⟩ := of_reaches hs hr (hr.of_childNode hs hp hd).1 hreach'
  obtain rfl := hs.single q hq q' hq' x hchild hchild'
  rcases Relation.ReflTransGen.total_of_right_unique hunique hclimb hclimb' with hup | hup
  · exact habove hc hd hup
  · exact (habove hd hc hup).symm

/-- The items below a node that was read among the items of a returned one. -/
theorem holds_below {owner id : ObjectId} {t : Option Token} {slot : Text} {inner : List Item} (howner : owner ∈ made)
    (hchild : s.Child owner id) (hread : s.read (.object owner) (.value slot (.object id)) = .ok (.node id t))
    (hopen : s.items (.object id) = .ok inner) : s.ChildNode owner id ∧
      ∃ entries, s.Holds made id inner entries ∧ (entries.map Prod.snd).Nodup := by
  have hnode := (hs.childNode howner).mpr ⟨hchild, isNode_of_read hread⟩
  obtain ⟨items, entries, hitems, hholds⟩ := hs.holds (hr.of_childNode hs howner hnode).1
  cases hopen.symm.trans hitems
  exact ⟨hnode, entries, hholds⟩

/-- Every element of the outline of some children is one of them or stands below one. -/
theorem Unfolds.among {owner : ObjectId} {items : List Item} (h : s.Unfolds owner items o)
    {entries : List (Text × ObjectId)} (hholds : s.Holds made owner items entries) {e : Element} (he : e ∈ o.elements) :
    s.Among owner (entries.map Prod.snd) e.id := by
  induction h generalizing entries with
  | empty => cases he
  | failure read tail ih =>
    obtain ⟨slot, id, entries, rfl, _, _, htail⟩ := hholds.of_cons
    exact (ih htail he).cons id
  | token read tail ih =>
    obtain ⟨slot, id, entries, rfl, heq, _, htail⟩ := hholds.of_cons
    cases heq
    rcases List.mem_cons.mp he with rfl | he
    · rw [id_of_elementOf? (read_value_eq_ok.mp read)]
      exact .inl List.mem_cons_self
    · exact (ih htail he).cons id
  | node read opened inside tail ihb ih =>
    obtain ⟨slot, id, entries, rfl, heq, hchild, htail⟩ := hholds.of_cons
    cases heq
    cases id_of_elementOf? (read_value_eq_ok.mp read)
    obtain ⟨hnode, inner, hbelow, _⟩ := holds_below hs hr hholds.known hchild read opened
    rcases List.mem_cons.mp he with rfl | he
    · exact .inl List.mem_cons_self
    · rcases List.mem_append.mp he with he | he
      · exact .inr ⟨_, List.mem_cons_self, hnode, (ihb hbelow he).under hbelow.child⟩
      · exact (ih htail he).cons _

/-- What is among other children of a node is not below one of them that is a node. -/
theorem Among.not_under {ids : List ObjectId} {id : ObjectId} (h : s.Among p ids x) (hp : p ∈ made)
    (hids : ∀ c ∈ ids, s.Child p c) (hid : id ∉ ids) (hnode : s.ChildNode p id) : ¬ s.Under id x := by
  intro hunder
  rcases h with hx | ⟨c, hc, hchild, hunder'⟩
  · exact not_child_of_under hs hr hp hnode hunder (hids x hx)
  · exact hid (eq_of_under hs hr hp hchild hnode hunder' hunder ▸ hc)

theorem Among.ne {ids : List ObjectId} {id : ObjectId} (h : s.Among p ids x) (hp : p ∈ made) (hid : id ∉ ids)
    (hchild : s.Child p id) : x ≠ id := by
  rintro rfl
  rcases h with hx | ⟨c, _, hc, hunder⟩
  · exact hid hx
  · exact not_child_of_under hs hr hp hc hunder hchild

/-- Nothing stands twice in the outline of some children. -/
theorem Unfolds.nodup {owner : ObjectId} {items : List Item} (h : s.Unfolds owner items o)
    {entries : List (Text × ObjectId)} (hholds : s.Holds made owner items entries)
    (hnodup : (entries.map Prod.snd).Nodup) : (o.elements.map Element.id).Nodup := by
  induction h generalizing entries with
  | empty => exact List.nodup_nil
  | failure read tail ih =>
    obtain ⟨slot, id, entries, rfl, _, _, htail⟩ := hholds.of_cons
    exact ih htail (List.nodup_cons.mp hnodup).2
  | token read tail ih =>
    obtain ⟨slot, id, entries, rfl, heq, hchild, htail⟩ := hholds.of_cons
    cases heq
    cases id_of_elementOf? (read_value_eq_ok.mp read)
    obtain ⟨hnotin, hnodup⟩ := List.nodup_cons.mp hnodup
    refine List.nodup_cons.mpr ⟨fun hmem => ?_, ih htail hnodup⟩
    obtain ⟨e, he, hid⟩ := List.mem_map.mp hmem
    exact (tail.among hs hr htail he).ne hs hr hholds.known hnotin hchild hid
  | @node _ _ _ _ _ _ _ below rest read opened inside tail ihb ih =>
    obtain ⟨slot, id, entries, rfl, heq, hchild, htail⟩ := hholds.of_cons
    cases heq
    cases id_of_elementOf? (read_value_eq_ok.mp read)
    obtain ⟨hnotin, hnodup⟩ := List.nodup_cons.mp hnodup
    obtain ⟨hnode, inner, hinner, hnodup'⟩ := holds_below hs hr hholds.known hchild read opened
    -- What is below the node stands below it, and what comes behind stands beside it or below something beside it.
    have hbelow := fun e (he : e ∈ below.elements) => (inside.among hs hr hinner he).under hinner.child
    have hbehind := fun e (he : e ∈ rest.elements) => tail.among hs hr htail he
    rw [Outline.elements, List.map_cons, List.map_append]
    refine List.nodup_cons.mpr ⟨fun hmem => ?_,
      List.nodup_append.mpr ⟨ihb hinner hnodup', ih htail hnodup, fun x hx y hy heq => ?_⟩⟩
    · rcases List.mem_append.mp hmem with hmem | hmem
      · obtain ⟨e, he, hid⟩ := List.mem_map.mp hmem
        have hunder := hbelow e he
        rw [hid] at hunder
        exact not_child_of_under hs hr hholds.known hnode hunder hchild
      · obtain ⟨e, he, hid⟩ := List.mem_map.mp hmem
        exact (hbehind e he).ne hs hr hholds.known hnotin hchild hid
    · obtain ⟨e, he, rfl⟩ := List.mem_map.mp hx
      obtain ⟨e', he', rfl⟩ := List.mem_map.mp hy
      exact (hbehind e' he').not_under hs hr hholds.known htail.child hnotin hnode (heq ▸ hbelow e he)

/-- In a whole store nothing fails to be read below a returned node, and no node is a token as well. -/
theorem Whole.clean (hw : s.Whole made) {owner : ObjectId} {items : List Item} (h : s.Unfolds owner items o)
    {entries : List (Text × ObjectId)} (hholds : s.Holds made owner items entries) : o.Clean := by
  induction h generalizing entries with
  | empty => trivial
  | failure read tail ih =>
    obtain ⟨slot, id, entries, rfl, heq, hchild, _⟩ := hholds.of_cons
    cases heq
    obtain ⟨e, he⟩ := exists_elementOf? (hw.elements _ hholds.known id hchild)
    rw [read_value_eq_ok.mpr he] at read
    cases read
  | token read tail ih =>
    obtain ⟨slot, id, entries, rfl, _, _, htail⟩ := hholds.of_cons
    exact ih htail
  | node read opened inside tail ihb ih =>
    obtain ⟨slot, id, entries, rfl, heq, hchild, htail⟩ := hholds.of_cons
    cases heq
    have hread := read_value_eq_ok.mp read
    cases id_of_elementOf? hread
    obtain ⟨_, inner, hinner, _⟩ := holds_below hs hr hholds.known hchild read opened
    obtain ⟨n, rows, hshows, _⟩ := hs.shows _ hinner.known
    refine ⟨?_, ihb hinner, ih htail⟩
    exact (isNode_of_elementOf? hread).2.2.symm.trans (hshows.token?_eq_none hs.grounded)

/-- The nodes that a walk is in are the parent chain of the innermost one, up to where the walk began. -/
theorem chain_of_inside (hn : n ∈ made) {stack : List Cursor} {ids : List ObjectId} (h : Walk.Inside s n stack p ids) :
    p ∈ made ∧ ∀ chain, s.ParentChain p chain → ∃ above, chain = ids ++ above := by
  induction h with
  | start _ => exact ⟨hn, fun chain _ => ⟨chain, rfl⟩⟩
  | child _ stands _ ih =>
    obtain ⟨hp, habove⟩ := ih
    obtain ⟨hknown, hparent⟩ := hr.of_childNode hs hp stands
    refine ⟨hknown, fun chain hchain => ?_⟩
    obtain ⟨chain, rfl, hrest⟩ := hchain.of_parent hparent
    obtain ⟨above, rfl⟩ := habove _ hrest
    exact ⟨above, rfl⟩

end

/-- A parent chain leads down again. -/
theorem Whole.transGen_of_mem (hw : s.Whole made) (hs : s.Sound made) {chain : List ObjectId}
    (h : s.ParentChain m chain) (hn : n ∈ chain) : Relation.TransGen s.ChildNode n m := by
  induction h with
  | top _ => cases hn
  | @up id p chain parent _ ih =>
    have hp := hw.parents id p parent
    have hnode : s.ChildNode p id := (hs.childNode hp).mpr ⟨hs.stands id p parent hp, hs.isNode id p parent⟩
    rcases List.mem_cons.mp hn with rfl | hn
    · exact .single hnode
    · exact (ih hn).tail hnode

/-! ## Walks and parent chains -/

/-- A walk over everything below a node hands out elements that agree with the parent chains: nothing twice, the nodes
that have the node in their chain, and each of these while the walk is in its chain up to that node. -/
structure Descends (s : Store) (n : ObjectId) (es : List Element) : Prop where
  lists : Walk.Lists s .all (.object n) es
  once : (es.map Element.id).Nodup
  above : ∀ m chain, s.ParentChain m chain → ((∃ t, .node m t ∈ es) ↔ n ∈ chain)
  path : ∀ w, Walk.descendants s .all (.object n) = .ok w → ∀ (i : Nat) m t chain, es[i]? = some (.node m t) →
    s.ParentChain m chain → ∃ ids above, chain = ids ++ n :: above ∧
      (w.after s none (i + 1)).stack.map Cursor.node = (ids ++ [n]).map .object

theorem Whole.descends (hw : s.Whole made) (hs : s.Sound made) (hr : s.Rooted made) (hn : n ∈ made) :
    ∃ es, s.Descends n es := by
  obtain ⟨items, entries, hopen, hholds, hnodup⟩ := hs.holds hn
  obtain ⟨o, items', hopen', hu⟩ := (hs.walkable fun m hm => (of_reaches hs hr hn hm).1).exists_outline
  cases hopen.symm.trans hopen'
  have houtline : s.Outlines n o := ⟨items, hopen, hu⟩
  have hlists : Walk.Lists s .all (.object n) o.elements :=
    (Walk.lists_iff houtline).mpr (Outline.events_all (hw.clean hs hr hu hholds))
  have hpath : ∀ w, Walk.descendants s .all (.object n) = .ok w → ∀ (i : Nat) m t chain,
      o.elements[i]? = some (.node m t) → s.ParentChain m chain → ∃ ids above, chain = ids ++ n :: above ∧
        (w.after s none (i + 1)).stack.map Cursor.node = (ids ++ [n]).map .object := by
    intro w hwalk i m t chain hi hchain
    obtain ⟨w', hwalk', hpulls⟩ := hlists
    cases hwalk.symm.trans hwalk'
    obtain ⟨p, ids, hinside, hchild⟩ := Walk.inside_of_lists hpulls (Walk.on_descendants hwalk) hi
    obtain ⟨hp, hrest⟩ := chain_of_inside hs hr hn hinside
    obtain ⟨rest, rfl, hclimb⟩ := hchain.of_parent (hr.of_childNode hs hp hchild).2
    obtain ⟨above, rfl⟩ := hrest rest hclimb
    obtain ⟨before, hbefore⟩ := hinside.ends
    refine ⟨before, above, ?_, hinside.nodes.trans (congrArg _ hbefore)⟩
    rw [← List.cons_append, hbefore, List.append_assoc]
    rfl
  refine ⟨o.elements, hlists, hu.nodup hs hr hholds hnodup, fun m chain hchain => ⟨?_, fun hmem => ?_⟩, hpath⟩
  · rintro ⟨t, hmem⟩
    obtain ⟨i, hi⟩ := List.getElem?_of_mem hmem
    obtain ⟨w, hwalk, _⟩ := hlists
    obtain ⟨ids, above, rfl, _⟩ := hpath w hwalk i m t chain hi hchain
    exact List.mem_append_right _ List.mem_cons_self
  · exact houtline.mem_elements (hw.transGen_of_mem hs hchain hmem)

/-- A node was made of a kind. -/
def madeOf (s : Store) (kind : Value) (id : ObjectId) : Bool :=
  (s.node? id).any fun n => (Value.ofNat n.variant.kind).same kind

/-- The nearest node of a kind above an object is the first one of its parent chain that was made of the kind. -/
theorem Whole.ancestor?_eq (hw : s.Whole made) (hs : s.Sound made) (kind : Value) :
    s.ancestor? (.object m) kind = (s.ancestors m).find? (s.madeOf kind) := by
  have hmade : ∀ {id chain}, s.ParentChain id chain → ∀ a ∈ chain, a ∈ made := by
    intro id chain hchain
    induction hchain with
    | top _ => nofun
    | up parent _ ih => exact List.forall_mem_cons.mpr ⟨hw.parents _ _ parent, ih⟩
  refine List.find?_congr fun a ha => ?_
  obtain ⟨n, rows, hshows, _⟩ := hs.shows a (hmade (hs.parentChain m) a ha)
  have hkind : s.lookup a "kind" = .ofNat n.variant.kind := hshows.lookup_node hs.grounded rfl
  have hnode : s.node? a = some n := by rw [node?, hshows.object]; rfl
  rw [hkind, madeOf, hnode]
  rfl

/-- After every run of regular calls, walks and parent chains describe the same tree, and the nearest node of a kind
above an object is found on its parent chain. -/
theorem walk_agrees (h : Reached (fun s made c => c.Regular s made) s made) :
    (∀ n ∈ made, ∃ es, s.Descends n es) ∧
    ∀ m, ∃ chain, s.ParentChain m chain ∧ ∀ kind, s.ancestor? (.object m) kind = chain.find? (s.madeOf kind) := by
  have hs := h.sound Call.Regular.harmless
  have hr := h.rooted fun h => ⟨h.harmless, h.genuine⟩
  exact ⟨fun n hn => h.whole.descends hs hr hn,
    fun m => ⟨s.ancestors m, hs.parentChain m, fun kind => h.whole.ancestor?_eq hs kind⟩⟩

end Store

namespace Sample

open Store

variable {s : Store} {n : ObjectId} {o : Outline} {es : List Element}

theorem eq_elements_of_descends (h : s.Descends n es) (depth : Nat) (houtline : s.outline? depth n = some o)
    (hclean : o.Clean) : es = o.elements := by
  have hevents := (Walk.lists_iff (outlines_of_outline? houtline)).mp h.lists
  rw [Outline.events_all hclean] at hevents
  exact (List.map_injective_iff.mpr (fun _ _ heq => Event.yielded.inj heq) hevents).symm

/-- The walk over the document with a leaf in a leaf. -/
theorem walk_agrees_nested : Reached (fun s made c => c.Regular s made) nested [25, 22, 20, 18] ∧
    (∃ es, nested.Descends 25 es ∧ es.map Element.id = [22, 18, 12, 20, 13, 15]) ∧
    nested.ParentChain 18 [22, 25] ∧ nested.ancestor? (.object 18) (.ofNat 0) = some 25 := by
  obtain ⟨hwalks, hchains⟩ := walk_agrees regular_nested
  obtain ⟨es, hdescends⟩ := hwalks 25 (by decide)
  obtain ⟨chain, hchain, hancestor⟩ := hchains 18
  have hparents : nested.parent? 18 = some 22 ∧ nested.parent? 22 = some 25 ∧ nested.parent? 25 = none := by
    decide +kernel
  have hclimb : nested.ParentChain 18 [22, 25] := .up hparents.1 (.up hparents.2.1 (.top hparents.2.2))
  cases hchain.unique hclimb
  refine ⟨regular_nested, ⟨es, hdescends, ?_⟩, hclimb, (hancestor _).trans (by decide +kernel)⟩
  rw [eq_elements_of_descends hdescends 3 (by decide +kernel : _ = some nestedOutline) clean_nestedOutline]
  decide

/-! ### Calls that are not regular -/

theorem not_descends_of_mem (depth : Nat) (houtline : s.outline? depth n = some o) (hclean : o.Clean) {m : ObjectId}
    {chain : List ObjectId} (hchain : s.ParentChain m chain) (hmem : .node m none ∈ o.elements) (hn : n ∉ chain) :
    ¬ ∃ es, s.Descends n es := by
  rintro ⟨es, hdescends⟩
  rw [← eq_elements_of_descends hdescends depth houtline hclean] at hmem
  exact hn ((hdescends.above m chain hchain).mp ⟨none, hmem⟩)

/-- The node with the snare that is made, with an object that is no token in the slot of its base. -/
def lured : Store := ((snareCall 20).run (stock.addAll snares)).2

theorem reached_lured : Reached (fun s made c => c.Harmless s ∧ c.Genuine s made) lured [22] :=
  (reached_snares _).runAll [snareCall 20] (.cons rfl .nil) (by decide +kernel)

theorem not_descends_lured : ¬ ∃ es, lured.Descends 22 es := by
  rintro ⟨es, hdescends⟩
  have houtline : lured.outline? 2 22 = some (.token 12 ⟨.ofNat 1, 0, 0, 1⟩
      (.failure (.ofTree (.malformed (.foreignValue baseName) (.text "Snare"))) .empty)) := by decide +kernel
  have hevents := (Walk.lists_iff (outlines_of_outline? houtline)).mp hdescends.lists
  cases es with
  | nil => cases hevents
  | cons e es => cases es <;> cases hevents

/-- None of the three conditions can be left out. In the document of an object that extends a node, a walk hands out a
leaf with another parent; in a node with a slot that is set through an error, it hands out a leaf without one; and where a
value was put under the name of the base, it fails. -/
theorem not_descends_without_regular :
    (Reached (fun s _ c => c.Harmless s ∧ c.input.Unshadowed s c.variant.layout) mimicked [30, 25, 22, 20, 18] ∧
      ¬ ∃ es, mimicked.Descends 30 es) ∧
    (Reached (fun s made c => c.Genuine s made ∧ c.input.Unshadowed s c.variant.layout) lifted [24, 20, 18] ∧
      ¬ ∃ es, lifted.Descends 20 es) ∧
    Reached (fun s made c => c.Harmless s ∧ c.Genuine s made) lured [22] ∧ ¬ ∃ es, lured.Descends 22 es := by
  refine ⟨⟨unshadowed_mimicked, ?_⟩, ⟨reached_lifted, ?_⟩, reached_lured, not_descends_lured⟩
  · exact not_descends_of_mem (o := .node 26 none (.node 18 none (.token 12 ⟨.ofNat 1, 0, 0, 1⟩ .empty) .empty)
      (.token 27 ⟨.ofNat 0, 0, 0, 0⟩ .empty)) 3 (by decide +kernel) ⟨rfl, ⟨rfl, trivial, trivial⟩, trivial⟩
      parentChain_mimicked_lifted.1 (by decide) (by decide)
  · exact not_descends_of_mem (o := .token 16 ⟨.ofNat 1, 0, 0, 1⟩ (.node 18 none (.token 12 ⟨.ofNat 1, 0, 0, 1⟩ .empty)
      .empty)) 2 (by decide +kernel) ⟨rfl, trivial, trivial⟩ parentChain_mimicked_lifted.2 (by decide) nofun

end Sample

end LosslessSyntax
