import LosslessSyntax.Proofs.Descent
import LosslessSyntax.Proofs.Trimming
import LosslessSyntax.Tree.Locate

/-!
# Spans of nodes

The span of a node reaches from its own start to that of the next node of the same parent, or to the end of the file.
Both ends can be read off an outline (`Outline.extents`), and they are what the store computes for every node of a source
file (`Branch.spanned`). A span ends at the end of the file or where one begins that comes later in document order
(`Outline.chained_extents`).

Nodes are looked up from the back. By the time that a span is looked at, all later ones have been, so that a look-up fails
only at a node without a start: `nodeAt_pinpoints` says what it comes to below every source file.
-/

namespace LosslessSyntax

/-- A node with the two ends of its span, as far as there are any. -/
structure Extent where
  node : ObjectId
  first : Option Number
  stop : Option Number

/-- Every span ends at the end of the file, or where a later one begins. -/
def Extent.Chained (eof : Number) : List Extent → Prop
  | [] => True
  | e :: es => (e.stop = some eof ∨ ∃ later ∈ es, later.first = e.stop) ∧ Chained eof es

theorem Extent.Chained.append {eof : Number} {es es' : List Extent} (h : Chained eof es) (h' : Chained eof es') :
    Chained eof (es ++ es') := by
  induction es with
  | nil => exact h'
  | cons e es ih =>
    refine ⟨h.1.imp_right fun ⟨later, hmem, hfirst⟩ => ⟨later, List.mem_append_left _ hmem, hfirst⟩, ih h.2⟩

namespace Outline

/-- The offset that first children lead to. -/
def start? (o : Outline) : Option Number := o.first?.map (·.2.fullStart)

/-- Where a span ends that these children follow: at the first node among them, or at the end of the file. -/
def bound (eof : Number) : Outline → Option Number
  | .empty => some eof
  | .failure _ rest => rest.bound eof
  | .token _ _ rest => rest.bound eof
  | .node _ _ below _ => below.start?

/-- The spans of the nodes among the children. -/
def fronts (eof : Number) : Outline → List Extent
  | .empty => []
  | .failure _ rest => rest.fronts eof
  | .token _ _ rest => rest.fronts eof
  | .node id _ below rest => ⟨id, below.start?, rest.bound eof⟩ :: rest.fronts eof

/-- The spans of all nodes, each before those of the nodes below it. -/
def extents (eof : Number) : Outline → List Extent
  | .empty => []
  | .failure _ rest => rest.extents eof
  | .token _ _ rest => rest.extents eof
  | .node id _ below rest => ⟨id, below.start?, rest.bound eof⟩ :: (below.extents eof ++ rest.extents eof)

/-- The nodes, each before those below it. -/
def nodes (o : Outline) : List ObjectId := o.elements.filterMap Element.node?

theorem map_node_extents (eof : Number) (o : Outline) : (o.extents eof).map Extent.node = o.nodes := by
  induction o with
  | empty => rfl
  | failure f rest ih => exact ih
  | token id t rest ih => exact ih
  | node id t below rest ihb ih =>
    rw [extents, List.map_cons, List.map_append, ihb, ih, nodes, nodes, nodes, elements, List.filterMap_cons,
      List.filterMap_append]
    rfl

theorem tops_subset_nodes (o : Outline) : o.tops ⊆ o.nodes := by
  induction o with
  | empty => exact List.Subset.refl _
  | failure f rest ih => exact ih
  | token id t rest ih => exact ih
  | node id t below rest ihb ih =>
    rw [tops, nodes, elements, List.filterMap_cons, List.filterMap_append]
    exact List.cons_subset_cons _ (List.subset_append_of_subset_right _ ih)

theorem mem_nodes {o : Outline} {m : ObjectId} : m ∈ o.nodes ↔ ∃ t, .node m t ∈ o.elements := by
  rw [nodes, List.mem_filterMap]
  constructor
  · rintro ⟨e, he, hm⟩
    cases e with
    | token id t => cases hm
    | node id t =>
      cases hm
      exact ⟨t, he⟩
  · rintro ⟨t, he⟩
    exact ⟨_, he, rfl⟩

/-- The end of a span among later children is where one of their spans begins, or the end of the file. -/
theorem bound_cases (eof : Number) (o : Outline) :
    o.bound eof = some eof ∨ ∃ later ∈ o.extents eof, later.first = o.bound eof := by
  induction o with
  | empty => exact .inl rfl
  | failure f rest ih => exact ih
  | token id t rest ih => exact ih
  | node id t below rest ihb ih => exact .inr ⟨_, List.mem_cons_self, rfl⟩

theorem chained_extents (eof : Number) (o : Outline) : Extent.Chained eof (o.extents eof) := by
  induction o with
  | empty => trivial
  | failure f rest ih => exact ih
  | token id t rest ih => exact ih
  | node id t below rest ihb ih =>
    refine ⟨(rest.bound_cases eof).imp_right ?_, ihb.append ih⟩
    rintro ⟨later, hmem, hfirst⟩
    exact ⟨later, List.mem_append_right _ hmem, hfirst⟩

/-- Where nothing fails and no node is a token, a walk over the nodes hands out nothing but the nodes. -/
theorem events_nodes {o : Outline} (h : o.Clean) : o.events .nodes none = (o.nodes.map (.node · none)).map .yielded := by
  induction o with
  | empty => rfl
  | failure f rest ih => exact h.elim
  | token id t rest ih => exact ih h
  | node id t below rest ihb ih =>
    obtain ⟨rfl, hbelow, hrest⟩ := h
    have hnodes : (node id none below rest).nodes = id :: (below.nodes ++ rest.nodes) := by
      rw [nodes, elements, List.filterMap_cons, List.filterMap_append]
      rfl
    rw [events, hnodes, List.map_cons, List.map_cons, List.map_append, List.map_append, ← ihb hbelow, ← ih hrest]
    rfl

end Outline

namespace Store

variable {s : Store} {root owner n m : ObjectId} {eof : ObjectId × Token} {items : List Item} {o : Outline}

/-! ## Members of nodes and tokens -/

/-- A node that shows its slots has its parent under that name. -/
theorem Shows.lookup_parent (hs : s.Grounded) {node : Node} {rows : List Row} (h : s.Shows n node rows) :
    s.lookup n "parent" = (s.parent? n).elim .null .object := by
  have hown : (Object.node node).own? "parent" = none := by
    rw [Object.own?]
    · simp only [Object.hidden, Object.listed, Node.members, h.plain]
      show node.madeWith.get? "parent" = none
      rw [Node.madeWith]
      cases node.file <;> rfl
    · exact fun _ _ _ heq => by cases heq
  have hseek : ∃ v, s.seek n "parent" = some (Ground.node.id, v) := by
    have hnode : ∀ steps, s.seekFrom "parent" (steps + 1) Ground.node.id =
        some (Ground.node.id, .operation "parent") := fun steps => by
      rw [seekFrom_succ, hs.object .node]
      rfl
    obtain ⟨size, hsize⟩ : ∃ k, s.size = k + 2 := by
      have hlt : 5 < s.size := hs.ground_lt .file
      exact ⟨s.size - 2, by omega⟩
    rw [seek, seekFrom_succ, h.object, Option.bind_some, hown, h.base, Object.base?, hsize]
    cases node.isSourceFile with
    | false => exact ⟨_, hnode _⟩
    | true =>
      refine ⟨.operation "parent", ?_⟩
      show s.seekFrom "parent" (size + 1 + 1) Ground.file.id = _
      rw [seekFrom_succ, hs.object .file, hs.base .file]
      exact hnode _
  obtain ⟨v, hseek⟩ := hseek
  rw [Store.lookup, hseek]
  rfl

/-- A token has its offset under that name. -/
theorem lookup_fullStart (hs : s.Grounded) {id : ObjectId} {t : Token} (h : s.token? id = some t) :
    s.lookup id "fullStart" = .number t.fullStart := by
  rw [token?] at h
  split at h
  · cases h
  · rename_i ho
    cases h
    exact lookup_own ho rfl (hs.ofId?_eq_none ho fun _ heq => by cases heq)
  · split at h
    · rw [tokenOfMembers?] at h
      split at h
      · rename_i hfirst _ _
        cases h
        exact hfirst
      · cases h
    · cases h

/-! ## The next node -/

theorem Unfolds.nextNode? (h : s.Unfolds owner items o) (hclean : o.Clean) :
    s.nextNode? (.object owner) items = .ok o.tops.head? := by
  induction h with
  | empty => rfl
  | failure read tail ih => exact hclean.elim
  | token read tail ih =>
    rw [Store.nextNode?, read, Attempt.ok_bind]
    exact ih hclean
  | node read opened inside tail ihb ih =>
    rw [Store.nextNode?, read, Attempt.ok_bind]
    rfl

/-- The first node among items is where the span of a node before them ends. -/
theorem Unfolds.bound_eq (h : s.Unfolds owner items o) (hclean : o.Clean) (eof : Number) :
    o.tops.head? = none ∧ o.bound eof = some eof ∨
      ∃ c below, o.tops.head? = some c ∧ s.Outlines c below ∧ below.Clean ∧ o.bound eof = below.start? := by
  induction h with
  | empty => exact .inl ⟨rfl, rfl⟩
  | failure read tail ih => exact hclean.elim
  | token read tail ih => exact ih hclean
  | node read opened inside tail ihb ih => exact .inr ⟨_, _, rfl, ⟨_, opened, inside⟩, hclean.2.1, rfl⟩

/-- What is known of a node among items. -/
theorem Unfolds.front (h : s.Unfolds owner items o) (hclean : o.Clean) {p : Option ObjectId} (hlinked : o.Linked s p)
    {eof : Number} {e : Extent} (he : e ∈ o.fronts eof) : e.node ∈ o.tops ∧ s.parent? e.node = p ∧
      ∃ below, s.Outlines e.node below ∧ below.Clean ∧ e.first = below.start? := by
  induction h with
  | empty => cases he
  | failure read tail ih => exact hclean.elim
  | token read tail ih => exact ih hclean hlinked he
  | @node owner id slot value t items inner below rest read opened inside tail ihb ih =>
    obtain ⟨_, hbelow, hrest⟩ := hclean
    obtain ⟨hparent, _, _, hlinkedRest⟩ := hlinked
    rcases List.mem_cons.mp he with rfl | hmem
    · exact ⟨List.mem_cons_self, hparent, below, ⟨inner, opened, inside⟩, hbelow, rfl⟩
    · obtain ⟨htop, hrest⟩ := ih hrest hlinkedRest hmem
      exact ⟨List.mem_cons_of_mem _ htop, hrest⟩

/-- The items behind a node are found, and its span ends where they say. -/
theorem Unfolds.nodeAfter? (h : s.Unfolds owner items o) (hclean : o.Clean) {p : Option ObjectId}
    (hlinked : o.Linked s p) {eof : Number} {e : Extent} (he : e ∈ o.fronts eof) :
    ∃ later rest, s.Unfolds owner later rest ∧ rest.Clean ∧ e.stop = rest.bound eof ∧
      s.nodeAfter? (.object owner) (.object e.node) items = .ok (some rest.tops.head?) := by
  induction h with
  | empty => cases he
  | failure read tail ih => exact hclean.elim
  | token read tail ih =>
    obtain ⟨later, rest, hlater, hrest, hstop, hafter⟩ := ih hclean hlinked he
    refine ⟨later, rest, hlater, hrest, hstop, ?_⟩
    rw [Store.nodeAfter?, read, Attempt.ok_bind]
    exact hafter
  | @node owner id slot value t items inner below rest read opened inside tail ihb ih =>
    obtain ⟨_, _, hrest⟩ := hclean
    obtain ⟨_, hid, _, hlinkedRest⟩ := hlinked
    rcases List.mem_cons.mp he with rfl | hmem
    · refine ⟨items, rest, tail, hrest, rfl, ?_⟩
      rw [Store.nodeAfter?, read, Attempt.ok_bind]
      show (if Value.object id = .object id then _ else _) = _
      rw [if_pos rfl, tail.nextNode? hrest]
      rfl
    · have hne : Value.object id ≠ .object e.node := by
        intro heq
        cases heq
        exact hid (tail.front hrest hlinkedRest hmem).1
      obtain ⟨later, rest', hlater, hrest', hstop, hafter⟩ := ih hrest hlinkedRest hmem
      refine ⟨later, rest', hlater, hrest', hstop, ?_⟩
      rw [Store.nodeAfter?, read, Attempt.ok_bind]
      show (if Value.object id = .object e.node then _ else _) = _
      rw [if_neg hne]
      exact hafter

/-! ## Spans of a tree -/

/-- The ends of the span of a node are what is given; without a start, a node without children was found there. -/
structure Spanned (s : Store) (e : Extent) : Prop where
  first : ∀ a, e.first = some a → s.fullStart (.object e.node) = .ok a
  unplaced : e.first = none →
    ∃ kind, s.fullStart (.object e.node) = .error (.ofTree (.malformed .noChildren kind))
  stop : ∀ b, e.stop = some b → s.endPosition (.object e.node) = .ok (.number b)

theorem Outlines.fullStart_of_start? (h : s.Outlines n o) (hclean : o.Clean) {a : Number} (ha : o.start? = some a) :
    s.fullStart (.object n) = .ok a := by
  obtain ⟨e, he, hfirst⟩ := Option.map_eq_some_iff.mp ha
  exact (h.edge Token.fullStart hclean.legible).mpr ⟨e, he, hfirst⟩

theorem Shows.malformed {node : Node} {rows : List Row} (h : s.Shows n node rows) (cause : Malformation) {α : Type} :
    s.malformed (α := α) cause (.object n) = .error (.ofTree (.malformed cause (.text node.variant.name))) := by
  rw [Store.malformed, h.kindName]
  rfl

namespace Branch

theorem root_eq (h : s.Branch root eof n o) (hm : s.Reaches n m) : s.root (.object m) = .ok root :=
  root_of_recorded (h.recorded m hm)

/-- A node with the outline of a part of the tree. -/
theorem below (h : s.Branch root eof n o) (hm : s.Reaches n m) {below : Outline} (houtline : s.Outlines m below)
    (hclean : below.Clean) (hlinked : below.Linked s (some m)) : s.Branch root eof m below where
  grounded := h.grounded
  outlines := houtline
  clean := hclean
  linked := hlinked
  shows x hx := h.shows x (hm.trans hx)
  recorded x hx := h.recorded x (hm.trans hx)
  lookup := h.lookup
  token := h.token

/-- Where a span ends that some items of a node follow. -/
theorem endPosition_of_bound (h : s.Branch root eof n o) (hm : s.Reaches n m) {rest : Outline} {later : List Item}
    (hlater : s.Unfolds owner later rest) (hclean : rest.Clean) {b : Number}
    (hb : rest.bound eof.2.fullStart = some b) :
    (match rest.tops.head? with
      | some next => Value.number <$> s.fullStart (.object next)
      | none => s.endOfFile (.object m) >>= fun endOfFile => Attempt.ofMisuse (s.member "fullStart" endOfFile)) =
      .ok (.number b) := by
  rcases hlater.bound_eq hclean eof.2.fullStart with ⟨hnone, hbound⟩ | ⟨c, below, hsome, houtline, hbelow, hbound⟩
  · rw [hnone]
    have hend : s.endOfFile (.object m) = .ok (.object eof.1) := by
      rw [Store.endOfFile, h.root_eq hm, Attempt.ok_bind, h.lookup]
      rfl
    rw [hb] at hbound
    cases hbound
    show (s.endOfFile (.object m) >>= _) = _
    rw [hend, Attempt.ok_bind]
    show Attempt.ofMisuse (.ok (s.lookup eof.1 "fullStart")) = _
    rw [lookup_fullStart h.grounded h.token]
    rfl
  · rw [hsome]
    rw [hb] at hbound
    show Value.number <$> s.fullStart (.object c) = _
    rw [houtline.fullStart_of_start? hbelow hbound.symm]
    rfl

/-- The span of a child that is a node. -/
theorem spanned_front (h : s.Branch root eof n o) {e : Extent} (he : e ∈ o.fronts eof.2.fullStart) : s.Spanned e := by
  obtain ⟨items, hopen, hu⟩ := h.outlines
  obtain ⟨htop, hparent, below, houtline, hclean, hfirst⟩ := hu.front h.clean h.linked he
  have hreach : s.Reaches n e.node := by
    obtain ⟨t, ht⟩ := Outline.mem_nodes.mp (o.tops_subset_nodes htop)
    exact hu.reaches hopen (List.Subset.refl items) ht
  obtain ⟨node, rows, hshows⟩ := h.shows e.node hreach
  refine ⟨fun a ha => houtline.fullStart_of_start? hclean (hfirst ▸ ha), fun hnone => ?_, fun b hb => ?_⟩
  · rw [hfirst, Outline.start?, Option.map_eq_none_iff] at hnone
    obtain ⟨inner, hopened, hinner⟩ := houtline
    obtain ⟨x, hx, _, hedge⟩ := hinner.edge_of_first?_eq_none Token.fullStart hopened hclean.legible hinner.depth_le hnone
    obtain ⟨node', rows', hshows'⟩ := h.shows x (hreach.trans hx.reaches)
    exact ⟨_, hedge.trans (hshows'.malformed .noChildren)⟩
  · obtain ⟨later, rest, hlater, hrest, hstop, hafter⟩ := hu.nodeAfter? h.clean h.linked he
    have hlookup : Attempt.ofMisuse (s.member "parent" (.object e.node)) = .ok (.object n) := by
      show Except.ok (s.lookup e.node "parent") = _
      rw [hshows.lookup_parent h.grounded, hparent]
      rfl
    have hend := h.endPosition_of_bound hreach hlater hrest (hstop ▸ hb)
    have htruthy : (Value.object n).truthy = true := rfl
    rw [Store.endPosition, hlookup, Attempt.ok_bind, if_pos htruthy, hopen, Attempt.ok_bind, hafter, Attempt.ok_bind]
    cases hhead : rest.tops.head? with
    | none => rw [hhead] at hend; exact hend
    | some next => rw [hhead] at hend; exact hend

/-- The spans of some children and of what is below them. Those of the children themselves hang on what comes behind. -/
theorem spanned_or_front (h : s.Branch root eof n o) {all : List Item} {part : Outline} (howner : s.Reaches n owner)
    (hopen : s.items (.object owner) = .ok all) (hu : s.Unfolds owner items part) (hsub : items ⊆ all)
    (hclean : part.Clean) (hlinked : part.Linked s (some owner)) :
    ∀ e ∈ part.extents eof.2.fullStart, e ∈ part.fronts eof.2.fullStart ∨ s.Spanned e := by
  induction hu generalizing all with
  | empty => exact fun e he => absurd he List.not_mem_nil
  | failure read tail ih => exact hclean.elim
  | token read tail ih => exact ih howner hopen (List.subset_of_cons_subset hsub) hclean hlinked
  | @node owner id slot value t items inner below rest read opened inside tail ihb ih =>
    obtain ⟨_, hbelow, hrest⟩ := hclean
    obtain ⟨_, _, hlinkedBelow, hlinkedRest⟩ := hlinked
    have hchild : s.ChildNode owner id :=
      ⟨all, slot, value, t, hopen, hsub List.mem_cons_self, read_value_eq_ok.mp read⟩
    have hid : s.Reaches n id := howner.tail hchild
    intro e he
    rcases List.mem_cons.mp he with rfl | he
    · exact .inl List.mem_cons_self
    · rcases List.mem_append.mp he with he | he
      · have hbranch := h.below hid ⟨inner, opened, inside⟩ hbelow hlinkedBelow
        rcases ihb hid opened (List.Subset.refl inner) hbelow hlinkedBelow e he with hfront | hspanned
        · exact .inr (hbranch.spanned_front hfront)
        · exact .inr hspanned
      · exact (ih howner hopen (List.subset_of_cons_subset hsub) hrest hlinkedRest e he).imp_left (List.mem_cons_of_mem _)

/-- The spans of all nodes below a node are those of its outline. -/
theorem spanned (h : s.Branch root eof n o) : ∀ e ∈ o.extents eof.2.fullStart, s.Spanned e := by
  obtain ⟨items, hopen, hu⟩ := h.outlines
  intro e he
  rcases h.spanned_or_front .refl hopen hu (List.Subset.refl items) h.clean h.linked e he with hfront | hspanned
  · exact h.spanned_front hfront
  · exact hspanned

end Branch

/-! ## Looking from the back -/

theorem Outlines.descendantNodes (h : s.Outlines n o) (hclean : o.Clean) :
    s.descendantNodes (.object n) = .ok o.nodes := by
  have hfold : ∀ (es acc : List Element), es.foldlM (fun acc e => (pure (e :: acc) : Attempt (List Element))) acc =
      .ok (es.reverse ++ acc) := by
    intro es
    induction es with
    | nil => exact fun _ => rfl
    | cons e es ih =>
      intro acc
      rw [List.foldlM_cons, pure_bind, ih, List.reverse_cons, List.append_assoc]
      rfl
  rw [Store.descendantNodes, Store.descendants, h.foldElements hclean, hfold, Attempt.ok_bind, List.append_nil,
    List.reverse_reverse]
  rfl

/-- A search from the back comes to the first element last. -/
theorem findM?_reverse_cons {α : Type} (f : α → Attempt Bool) (a : α) (as : List α) :
    (a :: as).reverse.findM? f = as.reverse.findM? f >>= fun found =>
      found.elim (f a >>= fun inside => pure (if inside then some a else none)) (pure ∘ some) := by
  have hcons : ∀ (b : α) (bs : List α), (b :: bs).findM? f = f b >>= fun inside =>
      bif inside then pure (some b) else bs.findM? f := fun _ _ => rfl
  have happend : ∀ bs : List α, (bs ++ [a]).findM? f = bs.findM? f >>= fun found =>
      found.elim (f a >>= fun inside => pure (if inside then some a else none)) (pure ∘ some) := by
    intro bs
    induction bs with
    | nil =>
      rw [List.nil_append, hcons]
      cases f a with
      | error failure => rfl
      | ok b => cases b <;> rfl
    | cons b bs ih =>
      rw [List.cons_append, hcons, hcons, ih]
      cases f b with
      | error failure => rfl
      | ok b => cases b <;> rfl
  rw [List.reverse_cons, happend]

/-- The span of a node has both ends, and the offset is in it or not. -/
def Measures (s : Store) (offset : Number) (m : ObjectId) (inside : Bool) : Prop :=
  ∃ first stop, s.fullStart (.object m) = .ok first ∧ s.endPosition (.object m) = .ok (.number stop) ∧
    (first.le offset && offset.lt stop) = inside

theorem Measures.spanContains {offset : Number} {inside : Bool} (h : s.Measures offset m inside) :
    s.spanContains (.number offset) m = .ok inside := by
  obtain ⟨first, stop, hfirst, hstop, rfl⟩ := h
  rw [Store.spanContains, hfirst, Attempt.ok_bind]
  show (if first.le offset = true then _ else _) = _
  cases first.le offset with
  | false => rfl
  | true =>
    rw [if_pos rfl, hstop]
    rfl

/-- What a look-up from the back comes to: nothing, the last node whose span contains the offset, or the fault of a node
without a start with no such node behind it. -/
inductive Pinpoints (s : Store) (offset : Number) (nodes : List ObjectId) : Attempt (Option ObjectId) → Prop
  | nothing (outside : ∀ x ∈ nodes, s.Measures offset x false) : Pinpoints s offset nodes (.ok none)
  | found (before after : List ObjectId) {m : ObjectId} (split : nodes = before ++ m :: after)
      (inside : s.Measures offset m true) (outside : ∀ x ∈ after, s.Measures offset x false) :
      Pinpoints s offset nodes (.ok (some m))
  | unplaced (before after : List ObjectId) {m : ObjectId} {kind : Value} (split : nodes = before ++ m :: after)
      (start : s.fullStart (.object m) = .error (.ofTree (.malformed .noChildren kind)))
      (outside : ∀ x ∈ after, s.Measures offset x false) :
      Pinpoints s offset nodes (.error (.ofTree (.malformed .noChildren kind)))

/-- The induction is on the list from the back: behind the node that is looked at, every node has a start, so that its own
span has an end if it has a start. -/
theorem pinpoints_extents {last : Number} {es : List Extent} (hspanned : ∀ e ∈ es, s.Spanned e)
    (hchained : Extent.Chained last es) (offset : Number) :
    s.Pinpoints offset (es.map Extent.node) ((es.map Extent.node).reverse.findM? (s.spanContains (.number offset))) := by
  induction es with
  | nil => exact .nothing fun x hx => absurd hx List.not_mem_nil
  | cons e es ih =>
    obtain ⟨hstop, hchained⟩ := hchained
    have he := hspanned e List.mem_cons_self
    have hes := fun e he => hspanned e (List.mem_cons_of_mem _ he)
    have hrest := ih hes hchained
    rw [List.map_cons, findM?_reverse_cons]
    generalize (es.map Extent.node).reverse.findM? (s.spanContains (.number offset)) = result at hrest
    cases hrest with
    | found before after split inside outside =>
      exact .found (e.node :: before) after (congrArg (List.cons e.node) split) inside outside
    | unplaced before after split start outside =>
      exact .unplaced (e.node :: before) after (congrArg (List.cons e.node) split) start outside
    | nothing outside =>
      cases hfirst : e.first with
      | none =>
        obtain ⟨kind, hstart⟩ := he.unplaced hfirst
        have hfails : s.spanContains (.number offset) e.node = .error (.ofTree (.malformed .noChildren kind)) := by
          rw [Store.spanContains, hstart]
          rfl
        rw [Attempt.ok_bind, hfails]
        exact .unplaced [] _ rfl hstart outside
      | some first =>
        obtain ⟨stop, hstop⟩ : ∃ b, e.stop = some b := by
          rcases hstop with heof | ⟨later, hlater, hfirst'⟩
          · exact ⟨_, heof⟩
          · cases hlaterFirst : later.first with
            | some b => exact ⟨b, by rw [← hfirst', hlaterFirst]⟩
            | none =>
              obtain ⟨a, _, ha, _⟩ := outside later.node (List.mem_map.mpr ⟨later, hlater, rfl⟩)
              obtain ⟨kind, hfails⟩ := (hes later hlater).unplaced hlaterFirst
              rw [hfails] at ha
              cases ha
        have hmeasures : s.Measures offset e.node (first.le offset && offset.lt stop) :=
          ⟨first, stop, he.first first hfirst, he.stop stop hstop, rfl⟩
        rw [Attempt.ok_bind, hmeasures.spanContains, Attempt.ok_bind]
        cases hinside : first.le offset && offset.lt stop with
        | true => exact .found [] _ rfl (hinside ▸ hmeasures) outside
        | false => exact .nothing (List.forall_mem_cons.mpr ⟨hinside ▸ hmeasures, outside⟩)

theorem Branch.pinpoints (h : s.Branch root eof n o) (offset : Number) :
    s.Pinpoints offset o.nodes (s.nodeAt (.object n) (.number offset)) := by
  have hscan := pinpoints_extents h.spanned (Outline.chained_extents eof.2.fullStart o) offset
  rw [Outline.map_node_extents] at hscan
  rw [Store.nodeAt, h.outlines.descendantNodes h.clean]
  exact hscan

/-! ## Source files that calls have returned -/

section

variable {t : Store} {made : List ObjectId}

/-- The parents of returned nodes are those that an outline shows. -/
theorem Unfolds.linked (hs : s.Sound made) (hr : s.Rooted made) (h : s.Unfolds owner items o)
    {entries : List (Text × ObjectId)} (hholds : s.Holds made owner items entries)
    (hnodup : (entries.map Prod.snd).Nodup) : o.Linked s (some owner) := by
  induction h generalizing entries with
  | empty => trivial
  | failure read tail ih =>
    obtain ⟨slot, id, entries, rfl, _, _, htail⟩ := hholds.of_cons
    exact ih htail (List.nodup_cons.mp hnodup).2
  | token read tail ih =>
    obtain ⟨slot, id, entries, rfl, _, _, htail⟩ := hholds.of_cons
    exact ih htail (List.nodup_cons.mp hnodup).2
  | @node _ _ _ _ _ _ _ below rest read opened inside tail ihb ih =>
    obtain ⟨slot, id, entries, rfl, heq, hchild, htail⟩ := hholds.of_cons
    cases heq
    cases id_of_elementOf? (read_value_eq_ok.mp read)
    obtain ⟨hnotin, hrest⟩ := List.nodup_cons.mp hnodup
    obtain ⟨hnode, inner, hinner, hnodup'⟩ := holds_below hs hr hholds.known hchild read opened
    refine ⟨(hr.of_childNode hs hholds.known hnode).2, fun htop => ?_, ihb hinner hnodup', ih htail hrest⟩
    obtain ⟨t, ht⟩ := Outline.mem_nodes.mp (rest.tops_subset_nodes htop)
    exact (tail.among hs hr htail ht).ne hs hr hholds.known hnotin hchild rfl

/-- A source file has its end-of-file token under that name. -/
def EndsWith (s : Store) (root : ObjectId) (eof : ObjectId × Token) : Prop :=
  s.lookup root endOfFileSlot = .object eof.1 ∧ s.token? eof.1 = some eof.2

theorem EndsWith.keeps (h : s.EndsWith root eof) (hs : s.Grounded) (hk : s.Keeps t) (hroot : root < s.size) :
    t.EndsWith root eof :=
  ⟨by rw [hs.lookup_keeps hk hroot (by decide), h.1], by rw [hs.token?_keeps hk (lt_size_of_token? h.2), h.2]⟩

/-- Every source file that a call returns has an end-of-file token. -/
theorem endsWith_of_run (hs : s.Grounded) (hc : s.Closed) {c : Call} (hgiven : c.Given s) (hh : c.Harmless s)
    (hrun : c.run s = (.ok root, t)) (hfile : t.isSourceFile root = true) : ∃ eof, t.EndsWith root eof := by
  have hv := lt_size_of_object? hgiven.variant
  cases c with
  | node v input =>
    rcases create_spec hs hc hv hgiven.input hh with ⟨id, n, rows, u, hrun', hmade, _, hnone⟩ | ⟨failure, u, hrun', _⟩
    · cases hrun.symm.trans hrun'
      rw [hmade.shows.isSourceFile hmade.grown.grounded, Node.isSourceFile, hnone] at hfile
      cases hfile
    · cases hrun.symm.trans hrun'
  | file g source input =>
    rcases createSourceFile_spec hs hc hv source hgiven.input hh with
      ⟨id, n, rows, u, nodes, hrun', hmade, _, ⟨endOfFile, hsome, htoken⟩, _⟩ | ⟨failure, u, hrun', _⟩ |
      ⟨failure, id, n, rows, u, nodes, hrun', _⟩
    · cases hrun.symm.trans hrun'
      obtain ⟨_, tok, htok, _⟩ := endOfFileToken?_eq_some.mp htoken
      have hlookup : u.lookup root endOfFileSlot = .object endOfFile :=
        hmade.shows.lookup_node hmade.grown.grounded (by rw [Node.madeWith, hsome]; rfl)
      have hends : u.EndsWith root (endOfFile, tok) := ⟨hlookup, htok⟩
      exact ⟨_, hends.keeps hmade.grown.grounded (keeps_recordRoot u root nodes) hmade.shows.lt_size⟩
    · cases hrun.symm.trans hrun'
    · cases hrun.symm.trans hrun'

theorem Reached.endsWith {allowed : Store → List ObjectId → Call → Prop} (h : Reached allowed s made)
    (hallowed : ∀ {s made c}, allowed s made c → c.Harmless s) (hroot : root ∈ made)
    (hfile : s.isSourceFile root = true) : ∃ eof, s.EndsWith root eof := by
  refine h.forall_returned hallowed (P := fun s root => s.isSourceFile root = true → ∃ eof, s.EndsWith root eof) ?_ ?_
    root hroot hfile
  · intro s made c id t hs hgiven hc hrun
    exact endsWith_of_run hs.grounded hs.closed hgiven (hallowed hc) hrun
  · intro s t made id hs hk hid ih hfile
    rw [hs.grounded.isSourceFile_keeps hk (hs.lt_size hid)] at hfile
    obtain ⟨eof, hends⟩ := ih hfile
    exact ⟨eof, hends.keeps hs.grounded hk (hs.lt_size hid)⟩

/-- A source file is a tree with its links, if everything below it can be read. -/
theorem Sound.exists_branch (hs : s.Sound made) (hr : s.Rooted made) (hroot : root ∈ made)
    (hfile : s.isSourceFile root = true) {eof : ObjectId × Token} (hends : s.EndsWith root eof) :
    ∃ items entries o, s.items (.object root) = .ok items ∧ s.Unfolds root items o ∧
      s.Holds made root items entries ∧ (o.Clean → s.Branch root eof root o) := by
  obtain ⟨items, entries, hopen, hholds, hnodup⟩ := hs.holds hroot
  obtain ⟨o, items', hopen', hu⟩ := (hs.walkable fun m hm => (of_reaches hs hr hroot hm).1).exists_outline
  cases hopen.symm.trans hopen'
  refine ⟨items, entries, o, hopen, hu, hholds, fun hclean => ?_⟩
  exact
    { grounded := hs.grounded
      outlines := ⟨items, hopen, hu⟩
      clean := hclean
      linked := hu.linked hs hr hholds hnodup
      shows := fun m hm => by
        obtain ⟨n, rows, hshows, _⟩ := hs.shows m (of_reaches hs hr hroot hm).1
        exact ⟨n, rows, hshows⟩
      recorded := fun m hm => (hr.recorded_of_reaches hs hroot hfile hm).2
      lookup := hends.1
      token := hends.2 }

/-- After regular calls, every source file is a tree with its links. -/
theorem Reached.branch (h : Reached (fun s made c => c.Regular s made) s made) (hroot : root ∈ made)
    (hfile : s.isSourceFile root = true) : ∃ eof o, s.Branch root eof root o := by
  have hs := h.sound Call.Regular.harmless
  have hr := h.rooted fun h => ⟨h.harmless, h.genuine⟩
  obtain ⟨eof, hends⟩ := h.endsWith Call.Regular.harmless hroot hfile
  obtain ⟨items, entries, o, _, hu, hholds, hbranch⟩ := hs.exists_branch hr hroot hfile hends
  exact ⟨eof, o, hbranch (h.whole.clean hs hr hu hholds)⟩

/-- Below every source file that regular calls have returned, a look-up gives the last node in document order whose span
contains the offset, or nothing; it fails only at a node without a start. -/
theorem nodeAt_pinpoints (h : Reached (fun s made c => c.Regular s made) s made) (hroot : root ∈ made)
    (hfile : s.isSourceFile root = true) : ∃ nodes,
      Walk.Lists s .nodes (.object root) (nodes.map (.node · none)) ∧
      (∀ offset, s.Pinpoints offset nodes (s.nodeAt (.object root) (.number offset))) ∧
      ((∀ m ∈ nodes, ∃ first, s.fullStart (.object m) = .ok first) →
        ∀ offset, ∃ found, s.nodeAt (.object root) (.number offset) = .ok found ∧ ∀ m ∈ found, m ∈ nodes) := by
  obtain ⟨eof, o, hbranch⟩ := h.branch hroot hfile
  refine ⟨o.nodes, (Walk.lists_iff hbranch.outlines).mpr (Outline.events_nodes hbranch.clean), hbranch.pinpoints,
    fun hplaced offset => ?_⟩
  have hpinpoints := hbranch.pinpoints offset
  generalize s.nodeAt (.object root) (.number offset) = result at hpinpoints
  cases hpinpoints with
  | nothing outside => exact ⟨none, rfl, fun m hm => by cases hm⟩
  | @found before after x split inside outside =>
    refine ⟨some x, rfl, fun m hm => ?_⟩
    cases hm
    exact split ▸ List.mem_append_right before List.mem_cons_self
  | @unplaced before after x kind split start outside =>
    obtain ⟨first, hfirst⟩ := hplaced x (split ▸ List.mem_append_right before List.mem_cons_self)
    rw [start] at hfirst
    cases hfirst

end

end Store

namespace Sample

open Store

/-- In the document with a leaf in a leaf, the second letter is in the second leaf. -/
theorem nodeAt_pinpoints_nested : Reached (fun s made c => c.Regular s made) nested [25, 22, 20, 18] ∧
    nested.isSourceFile 25 = true ∧
    (∃ nodes, Walk.Lists nested .nodes (.object 25) (nodes.map (.node · none)) ∧
      nested.Pinpoints 1 nodes (nested.nodeAt (.object 25) (.number 1))) ∧
    (nested.nodeAt (.object 25) (.number 1)).toOption = some (some 20) := by
  have hfile : nested.isSourceFile 25 = true := by decide +kernel
  obtain ⟨nodes, hlists, hpinpoints, _⟩ := nodeAt_pinpoints regular_nested (by decide) hfile
  exact ⟨regular_nested, hfile, ⟨nodes, hlists, hpinpoints 1⟩, by decide +kernel⟩

/-! ### Look-ups that fail -/

/-- A document of the node with the snare. -/
def luredFile : Store := ((documentCall letters [22] 15).run lured).2

theorem reached_luredFile : Reached (fun s made c => c.Harmless s ∧ c.Genuine s made) luredFile [25, 22] :=
  reached_lured.runAll [documentCall letters [22] 15] (.cons rfl .nil) (by decide +kernel)

/-- A leaf, a record that extends it but has other slots, and a document of that record. -/
def disguised : Store :=
  ((documentCall letters [19] 15).run (extendWith ((leafCall 12).run stock).2 [("children", .object 7)] 18)).2

theorem reached_disguised : Reached (fun s _ c => c.Harmless s ∧ c.input.Unshadowed s c.variant.layout) disguised
    [22, 18] := by
  have hleaf : Reached (fun s _ c => c.Harmless s ∧ c.input.Unshadowed s c.variant.layout) ((leafCall 12).run stock).2
      [18] := (reached_stock _).runAll [leafCall 12] (.cons rfl .nil) (by decide +kernel)
  have hsound := hleaf.sound And.left
  have hextended := untouched_extendWith hsound.grounded hsound.closed (m := [("children", .object 7)])
    (Object.refers_of_members (fun _ _ _ heq => by cases heq) (by decide +kernel)) 18 (hsound.lt_size (by decide))
  exact (Reached.between hleaf hextended).runAll [documentCall letters [19] 15] (.cons rfl .nil) (by decide +kernel)

/-- A look-up fails at a leaf of nothing when no span behind it contains the offset. Nor can one of the three conditions be
left out: with a slot that is set through an error, the span of a leaf without a parent has no end; and below a record that
extends a node but has other slots, or where a value was put under the name of the base, not even a walk gets to the end. -/
theorem nodeAt_fails :
    (Reached (fun s made c => c.Regular s made) padded [24, 21, 19] ∧ padded.isSourceFile 24 = true ∧
      (padded.nodeAt (.object 24) (.number 2)).toOption = none) ∧
    (Reached (fun s made c => c.Genuine s made) misplaced [23, 20, 18] ∧ misplaced.isSourceFile 23 = true ∧
      (misplaced.nodeAt (.object 23) (.number 1)).toOption = none) ∧
    (Reached (fun s _ c => c.Harmless s ∧ c.input.Unshadowed s c.variant.layout) disguised [22, 18] ∧
      disguised.isSourceFile 22 = true ∧ (disguised.nodeAt (.object 22) (.number 0)).toOption = none) ∧
    Reached (fun s made c => c.Harmless s ∧ c.Genuine s made) luredFile [25, 22] ∧ luredFile.isSourceFile 25 = true ∧
      (luredFile.nodeAt (.object 25) (.number 0)).toOption = none :=
  ⟨⟨reached_padded, by decide +kernel⟩, ⟨reached_misplaced, by decide +kernel⟩, ⟨reached_disguised, by decide +kernel⟩,
    reached_luredFile, by decide +kernel⟩

end Sample

end LosslessSyntax
