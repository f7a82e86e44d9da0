import LosslessSyntax.Proofs.Lossless
import LosslessSyntax.Proofs.Refusals

/-!
# Texts of nodes in a tree

If the tokens below a source file tile its source, then the texts of every node below it are cut from the source at the
positions of the node (`texts_agree`), as long as a first token is reached by first children.

The tokens below a node stand together among those of the file, so they tile a stretch of the source
(`Outlines.tiles_reaches`); the source is that of the file because the file is recorded for all nodes below it
(`source_of_recorded`).
-/

namespace LosslessSyntax

namespace Store

variable {s : Store} {made : List ObjectId} {root m : ObjectId} {o : Outline}

/-! ## Outlines below an outline -/

/-- The tokens below a child tile a part of what those of the node tile. -/
theorem Unfolds.tiles_child {owner : ObjectId} {items : List Item} (h : s.Unfolds owner items o) (hclean : o.Clean)
    {first last : Nat} (htiles : Token.Tiles first (o.tokens.map Prod.snd) last) {slot : Text} {value : Value}
    {c : ObjectId} {t : Option Token} (hitem : .value slot value ∈ items) (he : s.elementOf? value = some (.node c t)) :
    ∃ below low high, s.Outlines c below ∧ below.Clean ∧ Token.Tiles low (below.tokens.map Prod.snd) high ∧
      high ≤ last := by
  induction h generalizing first last with
  | empty => cases hitem
  | failure read tail ih => exact hclean.elim
  | token read tail ih =>
    obtain ⟨start, stop, _, hrest⟩ := htiles
    rcases List.mem_cons.mp hitem with heq | hmem
    · cases heq
      rw [read_value_eq_ok.mp read] at he
      cases he
    · exact ih hclean hrest hmem
  | @node owner id slot value t items inner below rest read opened inside tail ihb ih =>
    obtain ⟨_, hbelow, hrest⟩ := hclean
    rw [Outline.tokens, List.map_append] at htiles
    obtain ⟨between, htiles, htiles'⟩ := Token.Tiles.append.mp htiles
    rcases List.mem_cons.mp hitem with heq | hmem
    · cases heq
      rw [read_value_eq_ok.mp read] at he
      cases he
      exact ⟨below, first, between, ⟨inner, opened, inside⟩, hbelow, htiles, htiles'.le⟩
    · exact ih hrest htiles' hmem

/-- The tokens below a node tile a part of what those of the file tile. -/
theorem Outlines.tiles_reaches (h : s.Outlines root o) (hclean : o.Clean) {first last : Nat}
    (htiles : Token.Tiles first (o.tokens.map Prod.snd) last) (hm : s.Reaches root m) :
    ∃ below low high, s.Outlines m below ∧ below.Clean ∧ Token.Tiles low (below.tokens.map Prod.snd) high ∧
      high ≤ last := by
  induction hm with
  | refl => exact ⟨o, first, last, h, hclean, htiles, Nat.le_refl _⟩
  | tail _ hc ih =>
    obtain ⟨above, low, high, ⟨items, hopen, hu⟩, habove, htilesAbove, hle⟩ := ih
    obtain ⟨items', slot, value, t, hitems, hmem, he⟩ := hc
    rw [hopen] at hitems
    cases hitems
    obtain ⟨below, low', high', hbelow, hcleanBelow, htilesBelow, hle'⟩ := hu.tiles_child habove htilesAbove hmem he
    exact ⟨below, low', high', hbelow, hcleanBelow, htilesBelow, Nat.le_trans hle' hle⟩

/-- The nodes of an outline are below its node. -/
theorem Unfolds.reaches {owner : ObjectId} {items all : List Item} (h : s.Unfolds owner items o)
    (hopen : s.items (.object owner) = .ok all) (hsub : items ⊆ all) {t : Option Token} (hm : .node m t ∈ o.elements) :
    s.Reaches owner m := by
  induction h generalizing all with
  | empty => cases hm
  | failure read tail ih => exact ih hopen (List.subset_of_cons_subset hsub) hm
  | token read tail ih =>
    rcases List.mem_cons.mp hm with heq | hmem
    · cases heq
    · exact ih hopen (List.subset_of_cons_subset hsub) hmem
  | @node owner id slot value t' items inner below rest read opened inside tail ihb ih =>
    have hchild : s.ChildNode owner id :=
      ⟨all, slot, value, t', hopen, hsub List.mem_cons_self, read_value_eq_ok.mp read⟩
    rcases List.mem_cons.mp hm with heq | hmem
    · cases heq
      exact .single hchild
    · rcases List.mem_append.mp hmem with hbelow | hrest
      · exact .head hchild (ihb opened (List.Subset.refl inner) hbelow)
      · exact ih hopen (List.subset_of_cons_subset hsub) hrest

/-! ## Trees of returned nodes -/

theorem Shows.readable (hs : s.Grounded) {id : ObjectId} {n : Node} {rows : List Row} (h : s.Shows id n rows) :
    s.Readable id :=
  ⟨⟨_, h.slotNames⟩, by rw [h.lookup_children hs]; rfl⟩

/-- Everything below a returned node can be walked if it was returned, since children are older than parents. -/
theorem Sound.walkable (h : s.Sound made) (hknown : ∀ m, s.Reaches root m → m ∈ made) : s.Walkable root where
  readable m hm := by
    obtain ⟨n, rows, hshows, _⟩ := h.shows m (hknown m hm)
    exact hshows.readable h.grounded
  acyclic m hm hcycle := by
    have hlt : ∀ {x : Nat}, Relation.TransGen s.ChildNode m x → s.Reaches root x ∧ x < (m : Nat) := by
      intro x hx
      induction hx with
      | single hc =>
        obtain ⟨hchild, hn⟩ := (h.childNode (hknown m hm)).mp hc
        exact ⟨hm.tail hc, (h.younger _ _ ((h.linked m (hknown m hm) _ hchild).node hn).1).1⟩
      | tail _ hc ih =>
        obtain ⟨hchild, hn⟩ := (h.childNode (hknown _ ih.1)).mp hc
        have hparent := ((h.linked _ (hknown _ ih.1) _ hchild).node hn).1
        exact ⟨ih.1.tail hc, Nat.lt_trans (h.younger _ _ hparent).1 ih.2⟩
    exact absurd (hlt hcycle).2 (Nat.lt_irrefl m)

/-- No returned node is a token as well. -/
theorem Sound.plain (h : s.Sound made) (hknown : ∀ p ∈ made, ∀ c, s.ChildNode p c → c ∈ made) {owner : ObjectId}
    {items : List Item} (hu : s.Unfolds owner items o) (hopen : s.items (.object owner) = .ok items)
    (howner : owner ∈ made) : o.Plain := by
  have hitems : ∀ slot value c t, Item.value slot value ∈ items → s.elementOf? value = some (.node c t) → c ∈ made :=
    fun slot value c t hmem he => hknown owner howner c ⟨items, slot, value, t, hopen, hmem, he⟩
  clear hopen howner
  induction hu with
  | empty => trivial
  | failure read tail ih => exact ih fun slot value c t hmem => hitems slot value c t (List.mem_cons_of_mem _ hmem)
  | token read tail ih => exact ih fun slot value c t hmem => hitems slot value c t (List.mem_cons_of_mem _ hmem)
  | node read opened inside tail ihb ih =>
    have he := read_value_eq_ok.mp read
    have hid := hitems _ _ _ _ List.mem_cons_self he
    obtain ⟨n, rows, hshows, _⟩ := h.shows _ hid
    refine ⟨?_, ihb fun slot value c t hmem he => hknown _ hid c ⟨_, slot, value, t, opened, hmem, he⟩,
      ih fun slot value c t hmem => hitems slot value c t (List.mem_cons_of_mem _ hmem)⟩
    rw [← (isNode_of_elementOf? he).2.2, hshows.token?_eq_none h.grounded]

/-- The source of a node below a returned source file is that of the file. -/
theorem root_of_recorded (hroot : s.recorded? m = some root) : s.root (.object m) = .ok root := by
  rw [recorded?] at hroot
  rw [Store.root, hroot]
  rfl

theorem source_of_recorded (hroot : s.recorded? m = some root) {source : Text}
    (hsource : s.lookup root "source" = .text source) : s.source (.object m) = .ok (.text source) := by
  rw [Store.source, root_of_recorded hroot]
  exact congrArg Except.ok hsource

/-- The text of a returned source file is the text of a source. -/
theorem Sound.exact (h : s.Sound made) (hroot : root ∈ made) (hfile : s.isSourceFile root = true) {source : Text}
    (hsource : s.lookup root "source" = .text source) : source.length ≤ Number.exactBound := by
  obtain ⟨n, rows, hshows, _⟩ := h.shows root hroot
  rw [hshows.isSourceFile h.grounded, Node.isSourceFile, Option.isSome_iff_exists] at hfile
  obtain ⟨f, hf⟩ := hfile
  have hlookup : s.lookup root "source" = .text f.source.text :=
    hshows.lookup_node h.grounded (by rw [Node.madeWith, hf]; rfl)
  rw [hsource] at hlookup
  cases hlookup
  exact f.source.length_le

/-- A walk over the tokens below a node lists tokens that tile a text. -/
def TilesText (s : Store) (root : ObjectId) (source : Text) : Prop :=
  ∃ ts : List (ObjectId × Token), Walk.Lists s .tokens (.object root) (ts.map fun e => .token e.1 e.2) ∧
    Token.Tiles 0 (ts.map Prod.snd) source.length

/-- A node of a returned source file whose tokens tile its source. -/
structure Covered (s : Store) (made : List ObjectId) (root : ObjectId) (source : Text) (m : ObjectId) : Prop where
  returned : root ∈ made
  isFile : s.isSourceFile root = true
  text : s.lookup root "source" = .text source
  tiles : s.TilesText root source
  below : s.Reaches root m

/-- Where a walk lists the tokens below a returned node, everything below it can be read, and these are its tokens. -/
theorem Sound.tokens_of_lists (hs : s.Sound made) (hr : s.Rooted made) (hroot : root ∈ made) {items : List Item}
    (hopen : s.items (.object root) = .ok items) (hu : s.Unfolds root items o) {ts : List (ObjectId × Token)}
    (h : Walk.Lists s .tokens (.object root) (ts.map fun e => .token e.1 e.2)) : o.Clean ∧ o.tokens = ts := by
  have hknown : ∀ p ∈ made, ∀ c, s.ChildNode p c → c ∈ made := fun p hp c hc => (hr.of_childNode hs hp hc).1
  have hevents := (Walk.lists_iff ⟨items, hopen, hu⟩).mp h
  have hclean := (Outline.legible_of_events hevents).clean (hs.plain hknown hu hopen hroot)
  refine ⟨hclean, ?_⟩
  rw [Outline.events_tokens hclean, List.map_map] at hevents
  refine List.map_injective_iff.mpr (fun e e' heq => ?_) hevents
  injection heq with heq
  injection heq with hid htoken
  exact Prod.ext hid htoken

/-- The tokens below the node tile a stretch of the source, if the links and records of the store are in order. -/
theorem Covered.exists_stretch {source : Text} (h : s.Covered made root source m) (hs : s.Sound made)
    (hr : s.Rooted made) : ∃ o first last, s.Stretch m o source first last := by
  obtain ⟨ts, hlists, htiles⟩ := h.tiles
  have hbelow := fun m (hm : s.Reaches root m) => hr.recorded_of_reaches hs h.returned h.isFile hm
  obtain ⟨o, items, hopen, hu⟩ := (hs.walkable fun m hm => (hbelow m hm).1).exists_outline
  obtain ⟨hclean, htokens⟩ := hs.tokens_of_lists hr h.returned hopen hu hlists
  obtain ⟨below, low, high, houtline, hcleanBelow, htilesBelow, hle⟩ :=
    Outlines.tiles_reaches ⟨items, hopen, hu⟩ hclean (htokens ▸ htiles) h.below
  obtain ⟨n, rows, hshows, _⟩ := hs.shows m (hbelow m h.below).1
  exact ⟨below, low, high, houtline, hcleanBelow, hshows.isNode hs.grounded,
    source_of_recorded (hbelow m h.below).2 h.text, hs.exact h.returned h.isFile h.text, htilesBelow, hle⟩

/-- A node of a returned source file whose tokens tile its source, with a position. -/
structure Tiled (s : Store) (made : List ObjectId) (root : ObjectId) (source : Text) (m : ObjectId) : Prop where
  returned : root ∈ made
  isFile : s.isSourceFile root = true
  text : s.lookup root "source" = .text source
  tiles : s.TilesText root source
  below : s.Reaches root m
  starts : ∃ a, s.fullStart (.object m) = .ok a

theorem Tiled.covered {source : Text} (h : s.Tiled made root source m) : s.Covered made root source m :=
  ⟨h.returned, h.isFile, h.text, h.tiles, h.below⟩

/-- The texts of a node are cut from the source if the links and records of the store are in order. -/
theorem Tiled.agrees {source : Text} (h : s.Tiled made root source m) (hs : s.Sound made) (hr : s.Rooted made) :
    s.Agrees source (.object m) := by
  obtain ⟨a, ha⟩ := h.starts
  obtain ⟨o, first, last, hstretch⟩ := h.covered.exists_stretch hs hr
  obtain ⟨e, he, _⟩ := (hstretch.outlines.edge Token.fullStart hstretch.clean.legible).mp ha
  exact hstretch.agrees he

/-- The tokens of the tree of a source tile it, and every node of the tree has a position. -/
theorem tiles_parse (h : Calc.Hosts s) (source : Source) : ∃ root t,
    Calc.parseValue (.text source.text) s = (.ok root, t) ∧ t.TilesText root source.text ∧
      ∀ m, t.Reaches root m → ∃ a, t.fullStart (.object m) = .ok a := by
  obtain ⟨root, o, t, hrun, ht, hbears, htokens, _, _⟩ := Calc.parse_spec h source
  refine ⟨root, t, ?_, ⟨o.tokens, (hbears.outlines ht.grounded).lists_tokens hbears.clean, ?_⟩, fun m hm => ?_⟩
  · rw [Calc.parseValue_text]
    exact hrun
  · rw [htokens]
    exact Calc.tiles_tokens source.text s.size
  · obtain ⟨below, hbelow⟩ := hbears.reaches ht.grounded hm
    obtain ⟨e, he⟩ := hbelow.exists_first
    exact ⟨_, ((hbelow.outlines ht.grounded).edge Token.fullStart hbelow.clean.legible).mpr ⟨e, he, rfl⟩⟩

/-- If the tokens of a source file tile its source, the texts of all its nodes with a position are cut from the source
there, after every run of harmless and genuine calls; and every tree of a source of the calculator language is such a
file, with a position for each node. -/
theorem texts_agree (s : Store) :
    (∀ made root source m, Reached (fun s made c => c.Harmless s ∧ c.Genuine s made) s made →
      s.Tiled made root source m → s.Agrees source (.object m)) ∧
    (Calc.Hosts s → ∀ source : Source, ∃ root t, Calc.parseValue (.text source.text) s = (.ok root, t) ∧
      t.TilesText root source.text ∧ ∀ m, t.Reaches root m → ∃ a, t.fullStart (.object m) = .ok a) :=
  ⟨fun _ _ _ _ h htiled => htiled.agrees (h.sound And.left) (h.rooted id), tiles_parse⟩

end Store

/-! ## Runs -/

namespace Sample

open Store

/-- Two leaves, one of them in a third one, and their document. -/
def nested : Store :=
  ((documentCall letters [22, 20] 15).run ((leafCall 18).run ((leafCall 13).run ((leafCall 12).run stock).2).2).2).2

/-- The outline of the document of the nested leaves. -/
def nestedOutline : Outline :=
  .node 22 none (.node 18 none (.token 12 ⟨.ofNat 1, 0, 0, 1⟩ .empty) .empty)
    (.node 20 none (.token 13 ⟨.ofNat 1, 1, 1, 1⟩ .empty) (.token 15 ⟨.ofNat 0, 2, 2, 0⟩ .empty))

/-- A node of an outline whose tokens tile the source of its file. -/
theorem covered_of_outline? {s : Store} {made : List ObjectId} {root m : ObjectId} {o : Outline} {source : Text}
    (depth : Nat) (hclean : o.Clean) (htiles : Token.Tiles 0 (o.tokens.map Prod.snd) source.length)
    (h : root ∈ made ∧ s.isSourceFile root = true ∧ s.lookup root "source" = .text source ∧
      s.outline? depth root = some o) (hm : root = m ∨ .node m none ∈ o.elements) : s.Covered made root source m := by
  obtain ⟨hmade, hfile, htext, houtline⟩ := h
  obtain ⟨items, hopen, hu⟩ := outlines_of_outline? houtline
  refine ⟨hmade, hfile, htext, ⟨o.tokens, Outlines.lists_tokens ⟨items, hopen, hu⟩ hclean, htiles⟩, ?_⟩
  rcases hm with rfl | hm
  · exact .refl
  · exact hu.reaches hopen (List.Subset.refl items) hm

/-- A node with a position in an outline whose tokens tile the source of two letters. -/
theorem tiled_of_outline? {s : Store} {made : List ObjectId} {root m : ObjectId} {o : Outline} (depth : Nat)
    (first : Number) (hclean : o.Clean) (htiles : Token.Tiles 0 (o.tokens.map Prod.snd) 2)
    (h : root ∈ made ∧ s.isSourceFile root = true ∧ s.lookup root "source" = .text "ab" ∧
      s.outline? depth root = some o ∧ .node m none ∈ o.elements ∧ (s.fullStart (.object m)).toOption = some first) :
    s.Tiled made root "ab" m := by
  obtain ⟨hmade, hfile, htext, houtline, hm, hfirst⟩ := h
  have hcovered : s.Covered made root "ab" m :=
    covered_of_outline? depth hclean htiles ⟨hmade, hfile, htext, houtline⟩ (.inr hm)
  exact ⟨hmade, hfile, htext, hcovered.tiles, hcovered.below, ⟨first, Attempt.eq_ok hfirst⟩⟩

theorem clean_nestedOutline : nestedOutline.Clean := ⟨rfl, ⟨rfl, trivial, trivial⟩, rfl, trivial, trivial⟩

theorem tiles_nestedOutline : Token.Tiles 0 (nestedOutline.tokens.map Prod.snd) 2 :=
  ⟨0, 1, ⟨by decide, by decide, rfl, rfl, rfl⟩, 1, 2, ⟨by decide, by decide, rfl, rfl, rfl⟩, 2, 2,
    ⟨by decide, by decide, rfl, rfl, rfl⟩, rfl⟩

theorem regular_nested : Reached (fun s made c => c.Regular s made) nested [25, 22, 20, 18] :=
  (reached_stock _).runAll [leafCall 12, leafCall 13, leafCall 18, documentCall letters [22, 20] 15]
    (.cons rfl (.cons rfl (.cons rfl (.cons rfl .nil)))) (by decide +kernel)

theorem reached_nested : Reached (fun s made c => c.Harmless s ∧ c.Genuine s made) nested [25, 22, 20, 18] :=
  regular_nested.mono fun _ _ _ h => ⟨h.harmless, h.genuine⟩

/-- A leaf in a leaf, and a broken source of the calculator language. -/
theorem texts_agree_nested : Reached (fun s made c => c.Harmless s ∧ c.Genuine s made) nested [25, 22, 20, 18] ∧
    nested.Tiled [25, 22, 20, 18] 25 "ab" 18 ∧ nested.Agrees "ab" (.object 18) ∧ Calc.Hosts Calc.start ∧
    ∃ root t, Calc.parseValue (.text Calc.broken.text) Calc.start = (.ok root, t) ∧
      t.TilesText root Calc.broken.text ∧ ∀ m, t.Reaches root m → ∃ a, t.fullStart (.object m) = .ok a := by
  have htiled : nested.Tiled [25, 22, 20, 18] 25 "ab" 18 :=
    tiled_of_outline? 3 0 clean_nestedOutline tiles_nestedOutline (by decide +kernel)
  exact ⟨reached_nested, htiled, (texts_agree nested).1 _ _ _ _ reached_nested htiled, Calc.hosts_start,
    (texts_agree Calc.start).2 Calc.hosts_start Calc.broken⟩

theorem not_agrees_of_fullText {s : Store} {v : Value} {source : Text} (first stop : Number)
    (h : (s.fullStart v).toOption = some first ∧ (s.stop v).toOption = some (.number stop) ∧
      (s.fullText v).toOption ≠ some (source.slice first stop)) : ¬ s.Agrees source v := fun hagrees =>
  h.2.2 (congrArg Except.toOption (hagrees.fullText (Attempt.eq_ok h.1) (Attempt.eq_ok h.2.1)))

/-! ### Objects that extend nodes -/

/-- The nested leaves, an object that extends the outer one, and a second document of that object. -/
def mimicked : Store :=
  ((documentCall ⟨"xyz", by decide⟩ [26] 27).run ((extend nested 22).addAll [.token ⟨.ofNat 0, 0, 0, 0⟩])).2

theorem reached_extend_nested {allowed : Store → List ObjectId → Call → Prop}
    (h : Reached allowed nested [25, 22, 20, 18]) :
    Reached allowed ((extend nested 22).addAll [.token ⟨.ofNat 0, 0, 0, 0⟩]) [25, 22, 20, 18] := by
  have hsound := regular_nested.sound Call.Regular.harmless
  have hextended := untouched_extend hsound.grounded hsound.closed 22 (hsound.lt_size (by decide))
  refine .between (.between h hextended) (untouched_addAll hextended.grounded hextended.closed ?_)
  intro o ho
  rw [List.mem_singleton.mp ho]
  exact Object.refers_of_members nofun (by decide)

theorem unshadowed_extend_nested : Reached (fun s _ c => c.Harmless s ∧ c.input.Unshadowed s c.variant.layout)
    ((extend nested 22).addAll [.token ⟨.ofNat 0, 0, 0, 0⟩]) [25, 22, 20, 18] :=
  reached_extend_nested (regular_nested.mono fun _ _ _ h => ⟨h.harmless, h.unshadowed⟩)

/-! ### Nodes that a refused call puts into a slot -/

/-- A leaf, a document of a node that extends the error, and a second such node, which is refused: the leaf then stands
in a slot of the first one, which is not its parent. -/
def misplaced : Store :=
  ((hookCall (.object 18)).run
    ((documentCall letters [20] 15).run ((hookCall (.object 13)).run ((leafCall 14).run stock).2).2).2).2

def misplacedOutline : Outline :=
  .node 20 none (.token 16 ⟨.ofNat 1, 0, 0, 1⟩ (.node 18 none (.token 14 ⟨.ofNat 1, 1, 1, 1⟩ .empty) .empty))
    (.token 15 ⟨.ofNat 0, 2, 2, 0⟩ .empty)

/-- Each of the two stores is made by calls that miss one condition only. -/
theorem reached_mimicked_misplaced :
    Reached (fun s _ c => c.Harmless s ∧ c.input.Unshadowed s c.variant.layout) mimicked [30, 25, 22, 20, 18] ∧
      Reached (fun s made c => c.Genuine s made) misplaced [23, 20, 18] := by
  constructor
  · exact unshadowed_extend_nested.runAll [documentCall ⟨"xyz", by decide⟩ [26] 27] (.cons rfl .nil) (by decide +kernel)
  · exact (reached_stock _).runAll
      [leafCall 14, hookCall (.object 13), documentCall letters [20] 15, hookCall (.object 18)]
      (.cons rfl (.cons rfl (.cons rfl (.cons rfl .nil)))) (by decide +kernel)

theorem unshadowed_mimicked : Reached (fun s _ c => c.Harmless s ∧ c.input.Unshadowed s c.variant.layout) mimicked
    [30, 25, 22, 20, 18] := reached_mimicked_misplaced.1

theorem reached_mimicked : Reached (fun s _ c => c.Harmless s) mimicked [30, 25, 22, 20, 18] :=
  unshadowed_mimicked.mono fun _ _ _ => And.left

theorem reached_misplaced : Reached (fun s made c => c.Genuine s made) misplaced [23, 20, 18] :=
  reached_mimicked_misplaced.2

theorem clean_misplacedOutline : misplacedOutline.Clean := ⟨rfl, ⟨rfl, trivial, trivial⟩, trivial⟩

theorem tiles_misplacedOutline : Token.Tiles 0 (misplacedOutline.tokens.map Prod.snd) 2 :=
  ⟨0, 1, ⟨by decide, by decide, rfl, rfl, rfl⟩, 1, 2, ⟨by decide, by decide, rfl, rfl, rfl⟩, 2, 2,
    ⟨by decide, by decide, rfl, rfl, rfl⟩, rfl⟩

/-- Neither of the two conditions can be left out. With a second document of an object that extends a node, the text of
the inner leaf is cut from the source of that document; with a slot that is set through an error, the leaf has no source
to cut from. -/
theorem not_agrees_mimicked_misplaced :
    (Reached (fun s _ c => c.Harmless s) mimicked [30, 25, 22, 20, 18] ∧
      mimicked.Tiled [30, 25, 22, 20, 18] 25 "ab" 18 ∧ ¬ mimicked.Agrees "ab" (.object 18)) ∧
    Reached (fun s made c => c.Genuine s made) misplaced [23, 20, 18] ∧
      misplaced.Tiled [23, 20, 18] 23 "ab" 18 ∧ ¬ misplaced.Agrees "ab" (.object 18) := by
  refine ⟨⟨reached_mimicked, ?_, not_agrees_of_fullText 0 1 (by decide +kernel)⟩,
    reached_misplaced, ?_, not_agrees_of_fullText 1 2 (by decide +kernel)⟩
  · exact tiled_of_outline? 3 0 clean_nestedOutline tiles_nestedOutline (by decide +kernel)
  · exact tiled_of_outline? 3 1 clean_misplacedOutline tiles_misplacedOutline (by decide +kernel)

end Sample

end LosslessSyntax
