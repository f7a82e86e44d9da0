import LosslessSyntax.Proofs.Locating

/-!
# The last node that begins at an offset or before it

If the tokens of a source file tile its source, the end-of-file token last, and every node has a child, then the node at
an offset is the last one, in document order, that begins at the offset or before it (`nodeAt_eq_getLast?`). This holds
below every node of the file: what is below a node stands together in document order (`Branch.of_reaches`), and so
its spans begin in order as those of the whole file do (`Outline.ordered_before_last`). Where spans end does not matter
before the end of the file, and from there on no span contains an offset.
-/

namespace LosslessSyntax

/-! ## Spans that stand together -/

namespace Extent.Ordered

variable {es es' : List Extent} {first last length : Nat}

theorem of_append_left (h : Ordered first (es ++ es') last) : Ordered first es last := by
  induction es generalizing first with
  | nil => exact h.le
  | cons e es ih =>
    obtain ⟨start, hstart, hfirst, hrest⟩ := h
    exact ⟨start, hstart, hfirst, ih hrest⟩

theorem of_part (h : Ordered first es last) (hpart : es' <:+: es) : ∃ start, Ordered start es' last := by
  obtain ⟨before, after, rfl⟩ := hpart
  obtain ⟨start, hstart⟩ := h.of_append_left.of_append
  exact ⟨start, hstart⟩

/-- Spans in order, none of which begins behind an offset. -/
theorem tighten (h : Ordered first es length) (hlength : length ≤ Number.exactBound) (hfirst : first ≤ last)
    (hlast : last ≤ length) (hes : ∀ e ∈ es, ∃ start ≤ last, e.first = some (.ofNat start)) : Ordered first es last := by
  induction es generalizing first with
  | nil => exact hfirst
  | cons e es ih =>
    obtain ⟨⟨start', hle, hstart'⟩, hes⟩ := List.forall_mem_cons.mp hes
    obtain ⟨start, hstart, heq, hrest⟩ := h
    obtain rfl : start = start' := Number.ofNat_inj (Nat.le_trans hrest.le hlength)
      (Nat.le_trans (Nat.le_trans hle hlast) hlength) (Option.some.inj (heq.symm.trans hstart'))
    exact ⟨start, hstart, heq, ih hrest hle hes⟩

end Extent.Ordered

/-- Where tokens tile a stretch, none begins behind the last one. -/
theorem Token.Tiles.fullStart_le {ts : List Token} {t : Token} {first length : Nat} (h : Tiles first (ts ++ [t]) length) :
    ∃ last, first ≤ last ∧ last ≤ length ∧ t.fullStart = .ofNat last ∧
      ∀ u ∈ ts ++ [t], ∃ start ≤ last, u.fullStart = .ofNat start := by
  induction ts generalizing first with
  | nil =>
    have hle := h.le
    obtain ⟨start, stop, hspans, _⟩ := h
    refine ⟨first, Nat.le_refl first, hle, hspans.fullStart, fun u hu => ⟨first, Nat.le_refl first, ?_⟩⟩
    rw [List.mem_singleton.mp hu, hspans.fullStart]
  | cons t' ts ih =>
    obtain ⟨start, stop, hspans, hrest⟩ := h
    obtain ⟨last, hfirst, hlast, hstart, hothers⟩ := ih hrest
    have hle : first ≤ last := Nat.le_trans (Nat.le_trans hspans.first_le hspans.start_le) hfirst
    exact ⟨last, hle, hlast, hstart, List.forall_mem_cons.mpr ⟨⟨first, hle, hspans.fullStart⟩, hothers⟩⟩

namespace Outline

/-- A span begins where one of the tokens does. -/
theorem exists_token_of_extent {o : Outline} (hfull : o.Full) {x : Number} {e : Extent} (he : e ∈ o.extents x) :
    ∃ t ∈ o.tokens, e.first = some t.2.fullStart := by
  induction o with
  | empty => exact absurd he List.not_mem_nil
  | failure f rest ih => exact ih hfull he
  | token id t rest ih =>
    obtain ⟨t', ht', hfirst⟩ := ih hfull he
    exact ⟨t', List.mem_cons_of_mem _ ht', hfirst⟩
  | node id t below rest ihb ih =>
    obtain ⟨⟨t', ht'⟩, hbelow, hrest⟩ := hfull
    rw [tokens]
    rcases List.mem_cons.mp he with rfl | he
    · refine ⟨t', List.mem_append_left _ (List.mem_of_mem_head? (head?_tokens ht')), ?_⟩
      rw [start?, ht']
      rfl
    · rcases List.mem_append.mp he with he | he
      · obtain ⟨u, hu, hfirst⟩ := ihb hbelow he
        exact ⟨u, List.mem_append_left _ hu, hfirst⟩
      · obtain ⟨u, hu, hfirst⟩ := ih hrest he
        exact ⟨u, List.mem_append_right _ hu, hfirst⟩

/-- Where tokens tile a stretch, no span begins behind the last token. -/
theorem ordered_before_last {o : Outline} (hfull : o.Full) {ts : List (ObjectId × Token)} {eof : ObjectId × Token}
    (htokens : o.tokens = ts ++ [eof]) {first length : Nat}
    (htiles : Token.Tiles first ((ts ++ [eof]).map Prod.snd) length) (hlength : length ≤ Number.exactBound) (x : Number) :
    ∃ last ≤ length, eof.2.fullStart = .ofNat last ∧ Extent.Ordered first (o.extents x) last := by
  have hordered := ordered_extents hfull (htokens ▸ htiles) x
  rw [List.map_append, List.map_singleton] at htiles
  obtain ⟨last, hfirst, hlast, heof, hothers⟩ := htiles.fullStart_le
  refine ⟨last, hlast, heof, hordered.tighten hlength hfirst hlast fun e he => ?_⟩
  obtain ⟨t, ht, hbegin⟩ := exists_token_of_extent hfull he
  obtain ⟨start, hstart, heq⟩ := hothers t.2 (by
    rw [← List.map_singleton, ← List.map_append, ← htokens]
    exact List.mem_map.mpr ⟨t, ht, rfl⟩)
  exact ⟨start, hstart, heq ▸ hbegin⟩

/-- The spans below a child stand together. -/
theorem extents_of_part {o : Outline} {p : ObjectId × Outline} (hp : p ∈ o.parts) (x : Number) :
    p.2.extents x <:+: o.extents x := by
  induction o with
  | empty => exact absurd hp List.not_mem_nil
  | failure f rest ih => exact ih hp
  | token id t rest ih => exact ih hp
  | node id t below rest ihb ih =>
    rw [extents, ← List.cons_append]
    rcases List.mem_cons.mp hp with rfl | hp
    · exact ⟨[⟨id, below.start?, rest.bound x⟩], rest.extents x, rfl⟩
    · exact (ih hp).trans (List.suffix_append _ _).isInfix

theorem linked_of_part {s : Store} {o : Outline} {n : Option ObjectId} (h : o.Linked s n) {p : ObjectId × Outline}
    (hp : p ∈ o.parts) : p.2.Linked s (some p.1) := by
  induction o with
  | empty => exact absurd hp List.not_mem_nil
  | failure f rest ih => exact ih h hp
  | token id t rest ih => exact ih h hp
  | node id t below rest ihb ih =>
    obtain ⟨_, _, hbelow, hrest⟩ := h
    rcases List.mem_cons.mp hp with rfl | hp
    · exact hbelow
    · exact ih hrest hp

end Outline

namespace Store

variable {s : Store} {made : List ObjectId} {root owner n m : ObjectId} {eof : ObjectId × Token} {o : Outline}
  {source : Text}

/-! ## Nodes below a node -/

/-- What is below a node of a tree is a part of the tree, and its spans stand together. -/
theorem Branch.of_reaches (h : s.Branch root eof n o) (hm : s.Reaches n m) :
    ∃ below, s.Branch root eof m below ∧ below.extents eof.2.fullStart <:+: o.extents eof.2.fullStart := by
  induction hm with
  | refl => exact ⟨o, h, List.infix_rfl⟩
  | @tail p c hp hc ih =>
    obtain ⟨above, habove, hextents⟩ := ih
    obtain ⟨below, hpart⟩ := (habove.outlines.childNode_iff habove.clean).mp hc
    obtain ⟨houtline, hclean⟩ := habove.outlines.of_part habove.clean hpart
    exact ⟨below, habove.below (.single hc) houtline hclean (Outline.linked_of_part habove.linked hpart),
      (Outline.extents_of_part hpart _).trans hextents⟩

/-- Every node below a node has a child. -/
def Populated (s : Store) (n : ObjectId) : Prop :=
  ∀ m, s.Reaches n m → ∃ item items, s.items (.object m) = .ok (item :: items)

/-- Where everything can be read and there are children, the first ones lead to a token. -/
theorem Unfolds.exists_first {items : List Item} (h : s.Unfolds owner items o) (hclean : o.Clean) (hne : items ≠ [])
    {all : List Item} (hopen : s.items (.object owner) = .ok all) (hsub : items ⊆ all) (hpop : s.Populated owner) :
    ∃ e, o.first? = some e := by
  induction h generalizing all with
  | empty => exact absurd rfl hne
  | failure read tail ih => exact hclean.elim
  | token read tail ih => exact ⟨_, rfl⟩
  | @node owner id slot value t items inner below rest read opened inside tail ihb ih =>
    have hchild : s.ChildNode owner id :=
      ⟨all, slot, value, t, hopen, hsub List.mem_cons_self, read_value_eq_ok.mp read⟩
    obtain ⟨item, items', hitems⟩ := hpop id (.single hchild)
    cases opened.symm.trans hitems
    exact ihb hclean.2.1 (List.cons_ne_nil _ _) opened (List.Subset.refl _) fun m hm => hpop m (.head hchild hm)

theorem Unfolds.full {items : List Item} (h : s.Unfolds owner items o) (hclean : o.Clean) {all : List Item}
    (hopen : s.items (.object owner) = .ok all) (hsub : items ⊆ all) (hpop : s.Populated owner) : o.Full := by
  induction h generalizing all with
  | empty => trivial
  | failure read tail ih => exact hclean.elim
  | token read tail ih => exact ih hclean hopen (List.subset_of_cons_subset hsub) hpop
  | @node owner id slot value t items inner below rest read opened inside tail ihb ih =>
    obtain ⟨_, hbelow, hrest⟩ := hclean
    have hchild : s.ChildNode owner id :=
      ⟨all, slot, value, t, hopen, hsub List.mem_cons_self, read_value_eq_ok.mp read⟩
    have hpopBelow : s.Populated id := fun m hm => hpop m (.head hchild hm)
    obtain ⟨item, items', hitems⟩ := hpopBelow id .refl
    cases opened.symm.trans hitems
    exact ⟨inside.exists_first hbelow (List.cons_ne_nil _ _) opened (List.Subset.refl _) hpopBelow,
      ihb hbelow opened (List.Subset.refl _) hpopBelow, ih hrest hopen (List.subset_of_cons_subset hsub) hpop⟩

/-! ## Look-ups -/

/-- A node begins at an offset or before it. -/
def beginsBy (s : Store) (offset : Number) (m : ObjectId) : Bool :=
  (s.fullStart (.object m) : Attempt Number).toOption.any (·.le offset)

theorem Spanned.beginsBy {e : Extent} (h : s.Spanned e) {a : Number} (ha : e.first = some a) (offset : Number) :
    s.beginsBy offset e.node = a.le offset := by
  rw [Store.beginsBy, h.first a ha]
  rfl

/-- In a tree whose spans begin in document order, the node at an offset before the end of the file is the last one that
begins by the offset, and there is none from the end of the file on. -/
theorem Branch.nodeAt_eq (h : s.Branch root eof n o) {first last : Nat}
    (hordered : Extent.Ordered first (o.extents eof.2.fullStart) last) (heof : eof.2.fullStart = .ofNat last)
    (hlast : last ≤ Number.exactBound) (offset : Number) :
    s.nodeAt (.object n) (.number offset) =
      .ok (if offset.lt eof.2.fullStart = true then (o.nodes.filter (s.beginsBy offset)).getLast? else none) := by
  have hbehind : ∀ es ⊆ o.extents eof.2.fullStart, (∀ e ∈ es, ∀ a, e.first = some a → a.le offset = false) →
      (es.map Extent.node).filter (s.beginsBy offset) = [] := by
    intro es hsub hes
    refine List.filter_eq_nil_iff.mpr fun m hm => ?_
    obtain ⟨e, he, rfl⟩ := List.mem_map.mp hm
    obtain ⟨start, _, _, hstart⟩ := hordered.start (hsub he)
    rw [(h.spanned e (hsub he)).beginsBy hstart, hes e he _ hstart]
    exact Bool.false_ne_true
  rw [← Outline.map_node_extents eof.2.fullStart]
  rcases h.nodeAt_cases hordered heof hlast offset with
    ⟨hnone, hlater⟩ | ⟨before, e, after, hsome, hsplit, ⟨a, ha, hle⟩, ⟨_, hlt⟩, hafter⟩
  · rw [hnone]
    split
    · next hlt => rw [hbehind _ (List.Subset.refl _) (hlater hlt), List.getLast?_nil]
    · rfl
  · have hsub : after ⊆ o.extents eof.2.fullStart := hsplit ▸ List.subset_append_of_subset_right _ (List.subset_cons_self _ _)
    have hspanned := h.spanned e (hsplit ▸ List.mem_append_right _ List.mem_cons_self)
    rw [hsome, if_pos hlt, hsplit, List.map_append, List.map_cons, List.filter_append, List.filter_cons_of_pos,
      hbehind after hsub fun e' he' => (hafter e' he').2, List.getLast?_concat]
    rw [hspanned.beginsBy ha, hle]

/-- A returned source file whose tokens tile its source, the end-of-file token last, and in which every node has a
child. -/
structure Paved (s : Store) (made : List ObjectId) (root : ObjectId) (source : Text) (eof : ObjectId × Token) : Prop where
  returned : root ∈ made
  isFile : s.isSourceFile root = true
  text : s.lookup root "source" = .text source
  ends : s.EndsWith root eof
  tiles : ∃ ts : List (ObjectId × Token),
    Walk.Lists s .tokens (.object root) ((ts ++ [eof]).map fun e => .token e.1 e.2) ∧
      Token.Tiles 0 ((ts ++ [eof]).map Prod.snd) source.length
  populated : s.Populated root

/-- Below a node, the node at an offset before the end of the file is the last one, in document order, that begins at the
offset or before it, and there is none from the end of the file on. -/
def FindsLast (s : Store) (eof : ObjectId × Token) (n : ObjectId) : Prop := ∃ nodes : List ObjectId,
  Walk.Lists s .nodes (.object n) (nodes.map (.node · none)) ∧
  (∀ m ∈ nodes, ∃ first, s.fullStart (.object m) = .ok first) ∧
  ∀ offset : Number, s.nodeAt (.object n) (.number offset) =
    .ok (if offset.lt eof.2.fullStart = true then (nodes.filter (s.beginsBy offset)).getLast? else none)

/-- Below every node of a file that is paved, look-ups find the last node that begins by the offset. -/
theorem nodeAt_eq_getLast? (h : Reached (fun s made c => c.Harmless s ∧ c.Genuine s made) s made)
    (hpaved : s.Paved made root source eof) (hn : s.Reaches root n) : s.FindsLast eof n := by
  have hs := h.sound And.left
  have hr := h.rooted id
  obtain ⟨ts, hlists, htiles⟩ := hpaved.tiles
  obtain ⟨items, _, o, hopen, hu, _, hbranch⟩ := hs.exists_branch hr hpaved.returned hpaved.isFile hpaved.ends
  obtain ⟨hclean, htokens⟩ := hs.tokens_of_lists hr hpaved.returned hopen hu hlists
  have hlength := hs.exact hpaved.returned hpaved.isFile hpaved.text
  have hfull := hu.full hclean hopen (List.Subset.refl items) hpaved.populated
  obtain ⟨last, hlast, heof, hordered⟩ := Outline.ordered_before_last hfull htokens htiles hlength eof.2.fullStart
  obtain ⟨below, hbelow, hextents⟩ := (hbranch hclean).of_reaches hn
  obtain ⟨first, hbelowOrdered⟩ := hordered.of_part hextents
  refine ⟨below.nodes, (Walk.lists_iff hbelow.outlines).mpr (Outline.events_nodes hbelow.clean), fun m hm => ?_,
    hbelow.nodeAt_eq hbelowOrdered heof (Nat.le_trans hlast hlength)⟩
  rw [← Outline.map_node_extents eof.2.fullStart] at hm
  obtain ⟨e, he, rfl⟩ := List.mem_map.mp hm
  obtain ⟨start, _, _, hstart⟩ := hbelowOrdered.start he
  exact ⟨_, (hbelow.spanned e he).first _ hstart⟩

/-- The nodes in question are those of the outline. -/
theorem FindsLast.nodeAt (h : s.FindsLast eof n) (ho : s.Outlines n o) (hclean : o.Clean) (offset : Number) :
    s.nodeAt (.object n) (.number offset) =
      .ok (if offset.lt eof.2.fullStart = true then (o.nodes.filter (s.beginsBy offset)).getLast? else none) := by
  obtain ⟨nodes, hlists, _, hfinds⟩ := h
  have hevents := (Walk.lists_iff ho).mp hlists
  rw [Outline.events_nodes hclean, List.map_map, List.map_map] at hevents
  have hinj : Function.Injective fun m : ObjectId => Event.yielded (.node m none) := fun a b heq => by
    cases heq
    rfl
  rw [hfinds, List.map_injective_iff.mpr hinj hevents]

end Store

/-! ## Runs -/

namespace Sample

open Store

/-- A file whose outline shows that it is paved. -/
theorem paved_of_outline? {s : Store} {made : List ObjectId} {root : ObjectId} {o : Outline} {source : Text}
    {eof : ObjectId × Token} (depth : Nat) (hclean : o.Clean)
    (htiles : Token.Tiles 0 (o.tokens.map Prod.snd) source.length)
    (h : root ∈ made ∧ s.isSourceFile root = true ∧ s.lookup root "source" = .text source ∧
      (s.lookup root endOfFileSlot = .object eof.1 ∧ s.token? eof.1 = some eof.2 ∧ o.tokens.getLast? = some eof) ∧
      s.outline? depth root = some o ∧
      ∀ m ∈ root :: o.nodes, ((s.items (.object m) : Attempt (List Item)).toOption.any (!·.isEmpty)) = true) :
    s.Paved made root source eof := by
  obtain ⟨hmade, hfile, htext, ⟨hlookup, htoken, hlast⟩, houtline, hitems⟩ := h
  have ho := outlines_of_outline? houtline
  obtain ⟨ts, htokens⟩ := List.getLast?_eq_some_iff.mp hlast
  refine ⟨hmade, hfile, htext, ⟨hlookup, htoken⟩, ⟨ts, htokens ▸ ho.lists_tokens hclean, htokens ▸ htiles⟩, fun m hm => ?_⟩
  have hmem : m ∈ root :: o.nodes := by
    rcases Relation.reflTransGen_iff_eq_or_transGen.mp hm with rfl | hm
    · exact List.mem_cons_self
    · obtain ⟨t, hm⟩ := ho.mem_elements hm
      exact List.mem_cons_of_mem _ (Outline.mem_nodes.mpr ⟨t, hm⟩)
  have hm := hitems m hmem
  cases hread : s.items (.object m) with
  | error f => rw [hread] at hm; cases hm
  | ok items =>
    cases items with
    | nil => rw [hread] at hm; cases hm
    | cons item items => exact ⟨item, items, rfl⟩

theorem outlines_paved_nested : nested.Outlines 25 nestedOutline ∧
    nested.Paved [25, 22, 20, 18] 25 "ab" (15, ⟨.ofNat 0, 2, 2, 0⟩) :=
  ⟨outlines_of_outline? (by decide +kernel : nested.outline? 3 25 = _),
    paved_of_outline? 3 clean_nestedOutline tiles_nestedOutline (by decide +kernel)⟩

theorem outlines_nested : nested.Outlines 25 nestedOutline := outlines_paved_nested.1

theorem paved_nested : nested.Paved [25, 22, 20, 18] 25 "ab" (15, ⟨.ofNat 0, 2, 2, 0⟩) := outlines_paved_nested.2

theorem paved_mimicked_misplaced : mimicked.Paved [30, 25, 22, 20, 18] 25 "ab" (15, ⟨.ofNat 0, 2, 2, 0⟩) ∧
    misplaced.Paved [23, 20, 18] 23 "ab" (15, ⟨.ofNat 0, 2, 2, 0⟩) :=
  ⟨paved_of_outline? 3 clean_nestedOutline tiles_nestedOutline (by decide +kernel),
    paved_of_outline? 3 clean_misplacedOutline tiles_misplacedOutline (by decide +kernel)⟩

/-- A span may run on behind the end of the parent: below the first leaf, its own leaf is found at the second letter. -/
theorem nodeAt_eq_getLast?_nested : Reached (fun s made c => c.Harmless s ∧ c.Genuine s made) nested [25, 22, 20, 18] ∧
    nested.Paved [25, 22, 20, 18] 25 "ab" (15, ⟨.ofNat 0, 2, 2, 0⟩) ∧ nested.FindsLast (15, ⟨.ofNat 0, 2, 2, 0⟩) 22 ∧
    (nested.nodeAt (.object 22) (.number 1)).toOption = some (some 18) := by
  obtain ⟨items, hopen, hu⟩ := outlines_nested
  have hreaches : nested.Reaches 25 22 := hu.reaches hopen (List.Subset.refl items) List.mem_cons_self
  exact ⟨reached_nested, paved_nested, nodeAt_eq_getLast? reached_nested paved_nested hreaches, by decide +kernel⟩

theorem not_findsLast_of_nodeAt {s : Store} {root : ObjectId} {eof : ObjectId × Token} {o : Outline} (depth : Nat)
    (offset : Number) (hclean : o.Clean) (h : s.outline? depth root = some o ∧
      (s.nodeAt (.object root) (.number offset)).toOption ≠
        some (if offset.lt eof.2.fullStart = true then (o.nodes.filter (s.beginsBy offset)).getLast? else none)) :
    ¬ s.FindsLast eof root := fun hfinds =>
  h.2 (congrArg Except.toOption (hfinds.nodeAt (outlines_of_outline? h.1) hclean offset))

/-- Neither of the two conditions can be left out. With a second document of an object that extends a node, the span of
the inner leaf ends with that document; with a slot that is set through an error, the span of the leaf has no end. -/
theorem not_findsLast_mimicked_misplaced :
    (Reached (fun s _ c => c.Harmless s) mimicked [30, 25, 22, 20, 18] ∧
      mimicked.Paved [30, 25, 22, 20, 18] 25 "ab" (15, ⟨.ofNat 0, 2, 2, 0⟩) ∧
      ¬ mimicked.FindsLast (15, ⟨.ofNat 0, 2, 2, 0⟩) 25) ∧
    Reached (fun s made c => c.Genuine s made) misplaced [23, 20, 18] ∧
      misplaced.Paved [23, 20, 18] 23 "ab" (15, ⟨.ofNat 0, 2, 2, 0⟩) ∧
      ¬ misplaced.FindsLast (15, ⟨.ofNat 0, 2, 2, 0⟩) 23 := by
  refine ⟨⟨reached_mimicked, paved_mimicked_misplaced.1, ?_⟩, reached_misplaced, paved_mimicked_misplaced.2, ?_⟩
  · exact not_findsLast_of_nodeAt 3 0 clean_nestedOutline (by decide +kernel)
  · exact not_findsLast_of_nodeAt 3 1 clean_misplacedOutline (by decide +kernel)

end Sample

end LosslessSyntax
