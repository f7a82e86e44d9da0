import LosslessSyntax.Proofs.Beginnings
import LosslessSyntax.Proofs.Structure

/-!
# Spans of siblings

If the tokens of a source file tile its source, the end-of-file token last, and every node has a child, then the spans of
the nodes among the children of any node fill what is left of the file: each begins where the one before it ends, and the
last one ends where the end-of-file token begins (`spans_partition`). A node ends between the two ends of its span.

* A walk over the children of a node hands out the nodes among them (`Outlines.listsChildren`).
* The end-of-file token stands in a slot of the file (`Reached.child_endOfFile`), so that what is below the nodes there
  comes before it (`Unfolds.laid_of_last`).
* What is below one node is laid out before a limit (`Outline.Laid`), and that is all that its spans depend on
  (`Unfolds.abuts`).
-/

namespace LosslessSyntax

/-! ## Walks over children -/

namespace Walk

variable {s : Store} {owner : ObjectId} {w : Walk} {ids : List ObjectId}

/-- A walk over the children of a node hands out elements in order, never fails and then ends, however often it is
pulled. -/
def ListsChildren (s : Store) (accept : Accept) (v : Value) (es : List Element) : Prop :=
  ∃ w, children s accept v = .ok w ∧ ∀ count, w.pulls s none count =
    (es.map (fun e => ([], Outcome.yield e)) ++ List.replicate count ([], Outcome.done)).take count

/-- From a cursor on, the first node is found, and the cursor behind it leads to the others. -/
theorem searchItems_nodes {cursor : Cursor} {items : List Item} {o : Outline} (hnode : cursor.node = .object owner)
    (hitems : (s.itemsFrom cursor).map Prod.fst = items) (h : s.Unfolds owner items o) (hclean : o.Clean) :
    searchItems s .nodes none (fun _ => {}) (.object owner) (s.itemsFrom cursor) = {} ∧ o.tops = [] ∨
      ∃ c after rest, searchItems s .nodes none (fun _ => {}) (.object owner) (s.itemsFrom cursor) =
          { found := some (.yield (.node c none)), stack := [after] } ∧ after.node = .object owner ∧
        s.Unfolds owner ((s.itemsFrom after).map Prod.fst) rest ∧ rest.Clean ∧ o.tops = c :: rest.tops := by
  induction h generalizing cursor with
  | empty =>
    rw [List.map_eq_nil_iff] at hitems
    rw [hitems]
    exact .inl ⟨rfl, rfl⟩
  | failure read tail ih => exact hclean.elim
  | token read tail ih =>
    obtain ⟨⟨item, after⟩, more, hcons, rfl, hmore⟩ := List.map_eq_cons_iff.mp hitems
    obtain ⟨hn, ha⟩ := s.itemsFrom_after hcons
    have hlater := ih (hn.trans hnode) (by rw [ha, hmore]) hclean
    rw [ha] at hlater
    rw [hcons, searchItems_cons, read]
    exact hlater
  | @node owner id slot value t items inner below rest read opened inside tail ihb ih =>
    obtain ⟨⟨item, after⟩, more, hcons, rfl, hmore⟩ := List.map_eq_cons_iff.mp hitems
    obtain ⟨hn, ha⟩ := s.itemsFrom_after hcons
    obtain ⟨rfl, _, hrest⟩ := hclean
    refine .inr ⟨id, after, rest, ?_, hn.trans hnode, by rw [ha, hmore]; exact tail, hrest, rfl⟩
    rw [hcons, searchItems_cons, read]
    rfl

/-- The nodes that are left for a walk over those among the children. -/
structure Ahead (s : Store) (w : Walk) (ids : List ObjectId) : Prop where
  accept : w.accept = .nodes
  shallow : w.deep = false
  pending : w.pending = none
  stack : w.stack = [] ∧ ids = [] ∨ ∃ cursor owner o, w.stack = [cursor] ∧ cursor.node = .object owner ∧
    s.Unfolds owner ((s.itemsFrom cursor).map Prod.fst) o ∧ o.Clean ∧ o.tops = ids

/-- One pull takes the first of the nodes that are left. -/
theorem Ahead.next (h : Ahead s w ids) : (w.next s none).asked = [] ∧
    (w.next s none).outcome = ids.head?.elim .done (fun c => .yield (.node c none)) ∧
    Ahead s (w.next s none).walk ids.tail := by
  have henter : w.enterPending s none = ([], .ok w.stack) := by rw [enterPending_eq, h.pending]
  have hsearch : ∀ {r : Search}, searchStack s .nodes none (fun _ => {}) w.stack = r →
      w.next s none = ⟨r.asked, r.found.getD .done, { w with stack := r.stack, pending := none }⟩ := by
    rintro r rfl
    have hpending : ∀ outcome, w.toEnter outcome = none := by
      intro outcome
      cases outcome <;> simp [toEnter, h.shallow]
    rw [Walk.next_eq, henter]
    simp [h.shallow, h.accept, hpending]
  rcases h.stack with ⟨hstack, rfl⟩ | ⟨cursor, owner, o, hstack, hnode, hu, hclean, rfl⟩
  · rw [hsearch (by rw [hstack]; rfl : _ = {})]
    exact ⟨rfl, rfl, h.accept, h.shallow, rfl, .inl ⟨rfl, rfl⟩⟩
  · rcases searchItems_nodes hnode rfl hu hclean with ⟨hnone, htops⟩ | ⟨c, after, rest, hsome, hn, hrest, hc, htops⟩
    · have hr : searchStack s .nodes none (fun _ => {}) w.stack = {} := by
        rw [hstack, searchStack_cons, hnode, hnone]
        rfl
      rw [hsearch hr, htops]
      exact ⟨rfl, rfl, h.accept, h.shallow, rfl, .inl ⟨rfl, rfl⟩⟩
    · have hr : searchStack s .nodes none (fun _ => {}) w.stack =
          { found := some (.yield (.node c none)), stack := [after] } := by
        rw [hstack, searchStack_cons, hnode, hsome]
        rfl
      rw [hsearch hr, htops]
      exact ⟨rfl, rfl, h.accept, h.shallow, rfl, .inr ⟨after, owner, rest, rfl, hn, hrest, hc, rfl⟩⟩

theorem Ahead.pulls (h : Ahead s w ids) {count more : Nat} (hmore : count ≤ more) : w.pulls s none count =
    ((ids.map (Element.node · none)).map (fun e => ([], Outcome.yield e)) ++ List.replicate more ([], Outcome.done)).take
      count := by
  induction count generalizing w ids with
  | zero => rfl
  | succ count ih =>
    obtain ⟨hasked, houtcome, hwalk⟩ := h.next
    rw [Walk.pulls, ih hwalk (by omega), hasked, houtcome]
    cases ids with
    | nil =>
      obtain ⟨more, rfl⟩ : ∃ k, more = k + 1 := ⟨more - 1, by omega⟩
      rw [List.replicate_succ]
      simp only [List.tail_nil, List.map_nil, List.nil_append, List.take_succ_cons]
      rw [← List.replicate_succ, List.take_replicate, List.take_replicate, Nat.min_eq_left (by omega),
        Nat.min_eq_left (by omega)]
      rfl
    | cons c cs => rfl

end Walk

/-! ## Tokens laid out before a limit -/

namespace Outline

variable {o : Outline} {first last limit : Nat}

/-- Children in order from an offset on. From every node first children lead to a token, the tokens below it tile a
stretch before a limit, and so on below. -/
def Laid (limit : Nat) : Nat → Outline → Prop
  | _, .empty => True
  | _, .failure .. => False
  | first, .token _ _ rest => ∃ stop, first ≤ stop ∧ rest.Laid limit stop
  | first, .node _ _ below rest => (∃ e, below.first? = some e) ∧ below.Laid limit first ∧
    ∃ stop ≤ limit, Token.Tiles first (below.tokens.map Prod.snd) stop ∧ rest.Laid limit stop

theorem laid_of_tiles (hclean : o.Clean) (hfull : o.Full) (htiles : Token.Tiles first (o.tokens.map Prod.snd) last)
    (hlast : last ≤ limit) : o.Laid limit first := by
  induction o generalizing first last with
  | empty => trivial
  | failure f rest ih => exact hclean.elim
  | token id t rest ih =>
    obtain ⟨start, stop, hspans, hrest⟩ := htiles
    exact ⟨stop, Nat.le_trans hspans.first_le hspans.start_le, ih hclean hfull hrest hlast⟩
  | node id t below rest ihb ih =>
    obtain ⟨_, hcleanBelow, hcleanRest⟩ := hclean
    obtain ⟨hfirst, hfullBelow, hfullRest⟩ := hfull
    rw [tokens, List.map_append, Token.Tiles.append] at htiles
    obtain ⟨between, hbelow, hrest⟩ := htiles
    have hbetween := Nat.le_trans hrest.le hlast
    exact ⟨hfirst, ihb hcleanBelow hfullBelow hbelow hbetween, between, hbetween, hbelow,
      ih hcleanRest hfullRest hrest hlast⟩

theorem Laid.of_part (h : o.Laid limit first) {p : ObjectId × Outline} (hp : p ∈ o.parts) :
    ∃ start, p.2.Laid limit start := by
  induction o generalizing first with
  | empty => exact absurd hp List.not_mem_nil
  | failure f rest ih => exact h.elim
  | token id t rest ih =>
    obtain ⟨stop, _, hrest⟩ := h
    exact ih hrest hp
  | node id t below rest ihb ih =>
    obtain ⟨_, hbelow, stop, _, _, hrest⟩ := h
    rcases List.mem_cons.mp hp with rfl | hp
    · exact ⟨first, hbelow⟩
    · exact ih hrest hp

theorem mem_tops_of_part {p : ObjectId × Outline} (hp : p ∈ o.parts) : p.1 ∈ o.tops := by
  induction o with
  | empty => exact absurd hp List.not_mem_nil
  | failure f rest ih => exact ih hp
  | token id t rest ih => exact ih hp
  | node id t below rest ihb ih =>
    rcases List.mem_cons.mp hp with rfl | hp
    · exact List.mem_cons_self
    · exact List.mem_cons_of_mem _ (ih hp)

theorem sublist_tokens (o : Outline) : (o.tokens.map Prod.fst).Sublist (o.elements.map Element.id) := by
  induction o with
  | empty => exact .slnil
  | failure f rest ih => exact ih
  | token id t rest ih => exact ih.cons_cons id
  | node id t below rest ihb ih =>
    rw [tokens, elements, List.map_append, List.map_cons, List.map_append]
    exact (ihb.append ih).cons id

/-- Without tokens there are no nodes that lead to one. -/
theorem eq_empty (hclean : o.Clean) (hfull : o.Full) (htokens : o.tokens = []) : o = .empty := by
  cases o with
  | empty => rfl
  | failure f rest => exact hclean.elim
  | token id t rest => cases htokens
  | node id t below rest =>
    obtain ⟨⟨e, he⟩, _⟩ := hfull
    rw [tokens, List.append_eq_nil_iff] at htokens
    have hhead := head?_tokens he
    rw [htokens.1] at hhead
    cases hhead

end Outline

namespace Store

variable {s t : Store} {made : List ObjectId} {root owner n m : ObjectId} {eof : ObjectId × Token} {items : List Item}
  {o : Outline} {first last limit : Nat}

/-- A walk over the nodes among the children of a node lists those of its outline. -/
theorem Outlines.listsChildren (h : s.Outlines n o) (hclean : o.Clean) :
    Walk.ListsChildren s .nodes (.object n) (o.tops.map (.node · none)) := by
  obtain ⟨cursor, hc, hnode, hu⟩ := h.openCursor
  have hahead : Walk.Ahead s ⟨.nodes, false, [cursor], none⟩ o.tops :=
    ⟨rfl, rfl, rfl, .inr ⟨cursor, n, o, rfl, hnode, hu, hclean, rfl⟩⟩
  exact ⟨_, by rw [Walk.children, hc]; rfl, fun count => hahead.pulls (Nat.le_refl count)⟩

/-- A token among the items of a node is one of the outline. -/
theorem Unfolds.mem_tokens (h : s.Unfolds owner items o) {slot : Text} {value : Value} {id : ObjectId} {tok : Token}
    (hitem : .value slot value ∈ items) (he : s.elementOf? value = some (.token id tok)) : (id, tok) ∈ o.tokens := by
  induction h with
  | empty => exact absurd hitem List.not_mem_nil
  | failure read tail ih =>
    rcases List.mem_cons.mp hitem with heq | hmem
    · cases heq
      rw [read_value_eq_ok.mpr he] at read
      cases read
    · exact ih hmem
  | token read tail ih =>
    rcases List.mem_cons.mp hitem with heq | hmem
    · cases heq
      cases (read_value_eq_ok.mp read).symm.trans he
      exact List.mem_cons_self
    · exact List.mem_cons_of_mem _ (ih hmem)
  | node read opened inside tail ihb ih =>
    rcases List.mem_cons.mp hitem with heq | hmem
    · cases heq
      cases (read_value_eq_ok.mp read).symm.trans he
    · exact List.mem_append_right _ (ih hmem)

/-- The last one of the tokens that tile a stretch does not begin before it. -/
theorem le_of_getLast? {es : List (ObjectId × Token)} (h : Token.Tiles first (es.map Prod.snd) last)
    (hlast : last ≤ Number.exactBound) (hend : es.getLast? = some eof) (heof : eof.2.fullStart = .ofNat limit)
    (hlimit : limit ≤ Number.exactBound) : first ≤ limit := by
  obtain ⟨before, rfl⟩ := List.getLast?_eq_some_iff.mp hend
  rw [List.map_append, List.map_singleton] at h
  obtain ⟨start, hle, hstart, heq, _⟩ := h.fullStart_le
  rw [Number.ofNat_inj hlimit (Nat.le_trans hstart hlast) (heof.symm.trans heq)]
  exact hle

/-- Where a token is the last one and stands among the children of a node, everything below the nodes among these is laid
out before it. -/
theorem Unfolds.laid_of_last (h : s.Unfolds owner items o) (hclean : o.Clean) (hfull : o.Full)
    (hnodup : (o.tokens.map Prod.fst).Nodup) (htiles : Token.Tiles first (o.tokens.map Prod.snd) last)
    (hlast : last ≤ Number.exactBound) (hend : o.tokens.getLast? = some eof) {slot : Text}
    (hitem : .value slot (.object eof.1) ∈ items) (he : s.elementOf? (.object eof.1) = some (.token eof.1 eof.2))
    (heof : eof.2.fullStart = .ofNat limit) (hlimit : limit ≤ Number.exactBound) : o.Laid limit first := by
  induction h generalizing first with
  | empty => exact absurd hitem List.not_mem_nil
  | failure read tail ih => exact hclean.elim
  | @token owner id slot value t items rest read tail ih =>
    obtain ⟨start, stop, hspans, hrest⟩ := htiles
    obtain ⟨hnotin, hnodup⟩ := List.nodup_cons.mp hnodup
    refine ⟨stop, Nat.le_trans hspans.first_le hspans.start_le, ?_⟩
    cases htokens : rest.tokens with
    | nil =>
      rw [Outline.eq_empty (o := rest) hclean hfull htokens]
      trivial
    | cons e es =>
      have hend' : rest.tokens.getLast? = some eof := by
        rw [Outline.tokens, htokens, List.getLast?_cons_cons, ← htokens] at hend
        exact hend
      rcases List.mem_cons.mp hitem with heq | hmem
      · -- The last token is not here, since it is behind and no token stands twice.
        cases heq
        cases (read_value_eq_ok.mp read).symm.trans he
        exact absurd (List.mem_map_of_mem (List.mem_of_getLast? hend')) hnotin
      · exact ih hclean hfull hnodup hrest hend' hmem
  | @node owner id slot value t items inner below rest read opened inside tail ihb ih =>
    obtain ⟨_, hcleanBelow, hcleanRest⟩ := hclean
    obtain ⟨hfirst, hfullBelow, hfullRest⟩ := hfull
    rw [Outline.tokens, List.map_append] at hnodup htiles
    obtain ⟨between, hbelow, hrest⟩ := Token.Tiles.append.mp htiles
    have hmem : .value _ (.object eof.1) ∈ items := (List.mem_cons.mp hitem).resolve_left fun heq => by
      cases heq
      cases (read_value_eq_ok.mp read).symm.trans he
    have hend' : rest.tokens.getLast? = some eof := by
      rw [Outline.tokens, List.getLast?_append_of_ne_nil _ (List.ne_nil_of_mem (tail.mem_tokens hmem he))] at hend
      exact hend
    have hbetween := le_of_getLast? hrest hlast hend' heof hlimit
    exact ⟨hfirst, Outline.laid_of_tiles hcleanBelow hfullBelow hbelow hbetween, between, hbetween, hbelow,
      ih hcleanRest hfullRest (List.nodup_append.mp hnodup).2.1 hrest hend' hmem⟩

end Store

/-! ## End-of-file tokens -/

/-- A source file has a slot for the end-of-file token. -/
def Call.HasEndOfFile : Call → Prop
  | .node .. => True
  | .file g _ _ => g.sourceFile.layout.has endOfFileSlot = true

instance : (c : Call) → Decidable c.HasEndOfFile
  | .node .. => inferInstanceAs (Decidable True)
  | .file g _ _ => inferInstanceAs (Decidable (g.sourceFile.layout.has endOfFileSlot = true))

namespace Store

variable {s t : Store} {made : List ObjectId} {root owner n m : ObjectId} {eof : ObjectId × Token} {items : List Item}
  {o : Outline} {first last limit : Nat}

/-- A node or token that a slot holds is a child there, since a list that was made for a row is neither. -/
theorem Made.mem_children {p : Plan} {input : Input} {id : ObjectId} {node : Node} {rows : List Row}
    (h : s.Made p input id node rows t) {row : Row} (hrow : row ∈ rows) (hbase : row.slot ≠ baseName) {c : ObjectId}
    (hvalue : row.value = .object c) (helement : t.isElement (.object c) = true) : c ∈ row.children := by
  obtain ⟨arity, checked, _, hcheck, hchildren, hstands⟩ := h.given row hrow hbase
  rw [hvalue] at hstands
  rcases checkSlot_eq_ok hcheck with rfl | ⟨w, rfl, _⟩ | ⟨ws, rfl, _⟩
  · cases hstands
  · obtain rfl : .object c = w := hstands
    have hmem : Value.object c ∈ row.children.map .object := by
      rw [hchildren]
      exact List.mem_singleton_self _
    obtain ⟨c', hc', heq⟩ := List.mem_map.mp hmem
    cases heq
    exact hc'
  · obtain ⟨list, heq, hobject, hlist⟩ := hstands
    cases heq
    rw [h.grown.grounded.isElement_list hobject hlist] at helement
    cases helement

/-- The end-of-file token of a source file that a call returns stands in a slot of it. -/
theorem child_endOfFile_of_run (hs : s.Grounded) (hc : s.Closed) {c : Call} (hgiven : c.Given s) (hh : c.Harmless s)
    (hends : c.HasEndOfFile) (hrun : c.run s = (.ok root, t)) (hfile : t.isSourceFile root = true) {e : ObjectId}
    (he : t.lookup root endOfFileSlot = .object e) : t.Child root e := by
  have hv := lt_size_of_object? hgiven.variant
  cases c with
  | node v input =>
    rcases create_spec hs hc hv hgiven.input hh with ⟨id, n, rows, u, hrun', hmade, _, hnone⟩ | ⟨failure, u, hrun', _⟩
    · cases hrun.symm.trans hrun'
      rw [hmade.shows.isSourceFile hmade.grown.grounded, Node.isSourceFile, hnone] at hfile
      cases hfile
    · cases hrun.symm.trans hrun'
  | file g source input =>
    rcases createSourceFile_spec hs hc hv source hgiven.input hh with
      ⟨id, n, rows, u, nodes, hrun', hmade, hvariant, ⟨endOfFile, hsome, htoken⟩, _⟩ | ⟨failure, u, hrun', _⟩ |
      ⟨failure, id, n, rows, u, nodes, hrun', _⟩
    · cases hrun.symm.trans hrun'
      have hk := keeps_recordRoot u root nodes
      have hlookup : u.lookup root endOfFileSlot = .object endOfFile :=
        hmade.shows.lookup_node hmade.grown.grounded (by rw [Node.madeWith, hsome]; rfl)
      rw [hmade.grown.grounded.lookup_keeps hk hmade.shows.lt_size (by decide), hlookup] at he
      cases he
      obtain ⟨hslots, tok, htok, _⟩ := endOfFileToken?_eq_some.mp htoken
      obtain ⟨row, hrow, hslot⟩ : ∃ row ∈ rows, row.slot = endOfFileSlot := by
        obtain ⟨entry, hentry, hname⟩ := List.any_eq_true.mp hends
        have hnames : endOfFileSlot ∈ rows.map Row.slot := by
          rw [hmade.shows.slots, hvariant]
          exact List.mem_map.mpr ⟨entry, hentry, beq_iff_eq.mp hname⟩
        exact List.mem_map.mp hnames
      have hvalue : row.value = .object e := by
        rw [← hmade.shows.lookup row hrow, hslot]
        exact hslots
      have helement : u.isElement (.object e) = true := by rw [isElement, htok, Option.isSome_some, Bool.or_true]
      have hchild := hmade.mem_children hrow (by rw [hslot]; decide) hvalue helement
      exact ⟨n, rows, hmade.shows.keeps hmade.grown.grounded hk, List.mem_flatMap.mpr ⟨row, hrow, hchild⟩⟩
    · cases hrun.symm.trans hrun'
    · cases hrun.symm.trans hrun'

theorem Reached.child_endOfFile {allowed : Store → List ObjectId → Call → Prop} (h : Reached allowed s made)
    (hallowed : ∀ {s made c}, allowed s made c → c.Harmless s ∧ c.HasEndOfFile) (hroot : root ∈ made)
    (hfile : s.isSourceFile root = true) {e : ObjectId} (he : s.lookup root endOfFileSlot = .object e) :
    s.Child root e := by
  refine h.forall_returned (fun h => (hallowed h).1) (P := fun s root => s.isSourceFile root = true →
    ∀ e, s.lookup root endOfFileSlot = .object e → s.Child root e) ?_ ?_ root hroot hfile e he
  · intro s made c id t hs hgiven hc hrun hfile e he
    obtain ⟨hh, hends⟩ := hallowed hc
    exact child_endOfFile_of_run hs.grounded hs.closed hgiven hh hends hrun hfile he
  · intro s t made id hs hk hid ih hfile e he
    have hlt := hs.lt_size hid
    rw [hs.grounded.isSourceFile_keeps hk hlt] at hfile
    rw [hs.grounded.lookup_keeps hk hlt (by decide)] at he
    exact (hs.child_keeps hk hid e).mpr (ih hfile e he)

/-! ## Spans in a row -/

/-- Nodes in a row from an offset to another one. Each ends between the two ends of its span, and the next one begins
where its span ends. -/
def Abuts (s : Store) : Nat → List ObjectId → Nat → Prop
  | first, [], last => first = last
  | first, c :: cs, last => ∃ stop next, first ≤ stop ∧ stop ≤ next ∧ s.fullStart (.object c) = .ok (.ofNat first) ∧
    s.stop (.object c) = .ok (.number (.ofNat stop)) ∧ s.endPosition (.object c) = .ok (.number (.ofNat next)) ∧
    s.Abuts next cs last

namespace Abuts

variable {cs : List ObjectId} {c : ObjectId}

theorem le (h : s.Abuts first cs last) : first ≤ last := by
  induction cs generalizing first with
  | nil => exact Nat.le_of_eq h
  | cons c cs ih =>
    obtain ⟨stop, next, hstop, hnext, _, _, _, hrest⟩ := h
    exact Nat.le_trans (Nat.le_trans hstop hnext) (ih hrest)

/-- The ends of a node in the row, and those of its span. -/
theorem bounds (h : s.Abuts first cs last) (hc : c ∈ cs) : ∃ a b b', first ≤ a ∧ a ≤ b ∧ b ≤ b' ∧ b' ≤ last ∧
    s.fullStart (.object c) = .ok (.ofNat a) ∧ s.stop (.object c) = .ok (.number (.ofNat b)) ∧
    s.endPosition (.object c) = .ok (.number (.ofNat b')) := by
  induction cs generalizing first with
  | nil => exact absurd hc List.not_mem_nil
  | cons c' cs ih =>
    obtain ⟨stop, next, hstop, hnext, hfullStart, hstopAt, hend, hrest⟩ := h
    rcases List.mem_cons.mp hc with rfl | hc
    · exact ⟨first, stop, next, Nat.le_refl first, hstop, hnext, hrest.le, hfullStart, hstopAt, hend⟩
    · obtain ⟨a, b, b', ha, hb⟩ := ih hrest hc
      exact ⟨a, b, b', Nat.le_trans (Nat.le_trans hstop hnext) ha, hb⟩

/-- No offset is in the spans of two nodes in the row. -/
theorem disjoint (h : s.Abuts first cs last) (hlast : last ≤ Number.exactBound) : cs.Pairwise fun c c' =>
    ∀ offset, ¬ (s.spanContains (.number offset) c = .ok true ∧ s.spanContains (.number offset) c' = .ok true) := by
  induction cs generalizing first with
  | nil => exact .nil
  | cons c cs ih =>
    obtain ⟨stop, next, hstop, hnext, hfullStart, _, hend, hrest⟩ := h
    refine .cons (fun c' hc' offset => ?_) (ih hrest)
    obtain ⟨a, b, b', ha, hb, hb', hle, hfullStart', _, hend'⟩ := hrest.bounds hc'
    rintro ⟨hinside, hinside'⟩
    have hmeasures : s.Measures offset c _ := ⟨_, _, hfullStart, hend, rfl⟩
    have hmeasures' : s.Measures offset c' _ := ⟨_, _, hfullStart', hend', rfl⟩
    have hlt := (Bool.and_eq_true_iff.mp (Except.ok.inj (hmeasures.spanContains.symm.trans hinside))).2
    have hle' := (Bool.and_eq_true_iff.mp (Except.ok.inj (hmeasures'.spanContains.symm.trans hinside'))).1
    cases hzero : Number.le 0 offset with
    | false =>
      rw [Number.ofNat_le_eq_false hzero (by omega)] at hle'
      cases hle'
    | true =>
      obtain ⟨floor, hfloors⟩ := Number.exists_floors hzero
      rw [(hfloors next (by omega)).2, decide_eq_true_eq] at hlt
      rw [(hfloors a (by omega)).1, decide_eq_true_eq] at hle'
      omega

end Abuts

/-- The nodes among children that are laid out before a limit fill what is left before it. The induction is on the
children from the back, as spans end where later ones begin. -/
theorem Unfolds.abuts (h : s.Unfolds owner items o) (hclean : o.Clean) (hlaid : o.Laid limit first)
    (hlimit : limit ≤ Number.exactBound) (hspanned : ∀ e ∈ o.fronts (.ofNat limit), s.Spanned e) :
    ∃ start, (start = limit ∨ first ≤ start) ∧ o.bound (.ofNat limit) = some (.ofNat start) ∧
      s.Abuts start o.tops limit := by
  induction h generalizing first with
  | empty => exact ⟨limit, .inl rfl, rfl, rfl⟩
  | failure read tail ih => exact hclean.elim
  | token read tail ih =>
    obtain ⟨stop, hstop, hrest⟩ := hlaid
    obtain ⟨start, hstart, habuts⟩ := ih hclean hrest hspanned
    exact ⟨start, hstart.imp_right (Nat.le_trans hstop), habuts⟩
  | @node owner id slot value t items inner below rest read opened inside tail ihb ih =>
    obtain ⟨_, hcleanBelow, hcleanRest⟩ := hclean
    obtain ⟨hfirst, _, stop, hstop, htiles, hrest⟩ := hlaid
    obtain ⟨hspan, hspannedRest⟩ := List.forall_mem_cons.mp hspanned
    obtain ⟨next, hnext, hbound, habuts⟩ := ih hcleanRest hrest hspannedRest
    have hbegin := Outline.start?_eq htiles hfirst
    have hfullStart := hspan.first _ hbegin
    refine ⟨first, .inr (Nat.le_refl first), hbegin, stop, next, htiles.le, by omega, hfullStart, ?_,
      hspan.stop _ hbound, habuts⟩
    exact Outlines.stop ⟨inner, opened, inside⟩ hcleanBelow (isNode_of_read read) htiles (by omega) hfullStart

theorem Branch.laid_of_reaches (h : s.Branch root eof n o) (hlaid : o.Laid limit first) (hm : s.Reaches n m) :
    ∃ below start, s.Branch root eof m below ∧ below.Laid limit start := by
  induction hm with
  | refl => exact ⟨o, first, h, hlaid⟩
  | @tail p c hp hc ih =>
    obtain ⟨above, start, habove, hlaidAbove⟩ := ih
    obtain ⟨below, hpart⟩ := (habove.outlines.childNode_iff habove.clean).mp hc
    obtain ⟨houtline, hclean⟩ := habove.outlines.of_part habove.clean hpart
    obtain ⟨start', hbelow⟩ := hlaidAbove.of_part hpart
    exact ⟨below, start', habove.below (.single hc) houtline hclean (Outline.linked_of_part habove.linked hpart), hbelow⟩

/-- The nodes among the children of a node of a tree that is laid out before the end-of-file token. -/
theorem Branch.abuts (h : s.Branch root eof n o) (hlaid : o.Laid limit first) (heof : eof.2.fullStart = .ofNat limit)
    (hlimit : limit ≤ Number.exactBound) : ∃ start, s.Abuts start o.tops limit := by
  obtain ⟨items, hopen, hu⟩ := h.outlines
  obtain ⟨start, _, _, habuts⟩ := hu.abuts h.clean hlaid hlimit fun e he => h.spanned_front (heof ▸ he)
  exact ⟨start, habuts⟩

/-- A token among the children of a returned node is no node besides. -/
theorem Sound.elementOf?_token (hs : s.Sound made) (hr : s.Rooted made) (hn : n ∈ made) {e : ObjectId} {tok : Token}
    (hchild : s.Child n e) (htok : s.token? e = some tok) : s.elementOf? (.object e) = some (.token e tok) := by
  have hnode : s.isNode e = false := Bool.eq_false_iff.mpr fun he => by
    obtain ⟨_, _, hshows, _⟩ := hs.shows _ (hr.of_childNode hs hn ((hs.childNode hn).mpr ⟨hchild, he⟩)).1
    cases (hshows.token?_eq_none hs.grounded).symm.trans htok
  rw [elementOf?, hnode, if_neg Bool.false_ne_true, htok]
  rfl

theorem Child.exists_item (h : s.Child n m) (hs : s.Grounded) (hopen : s.items (.object n) = .ok items) :
    ∃ slot, .value slot (.object m) ∈ items := by
  obtain ⟨_, rows, hshows, hmem⟩ := h
  obtain ⟨entries, hitems, hchildren⟩ := hshows.exists_entries hs
  rw [← hchildren] at hmem
  obtain ⟨entry, hentry, rfl⟩ := List.mem_map.mp hmem
  cases hopen.symm.trans hitems
  exact ⟨entry.1, List.mem_map.mpr ⟨entry, hentry, rfl⟩⟩

/-- A file that is paved is laid out before its end-of-file token, if that stands in one of its slots. -/
theorem Paved.exists_laid {source : Text} (h : s.Paved made root source eof) (hs : s.Sound made) (hr : s.Rooted made)
    (hchild : s.Child root eof.1) : ∃ o, ∃ last ≤ source.length, s.Branch root eof root o ∧ o.Laid last 0 ∧
      eof.2.fullStart = .ofNat last ∧ source.length ≤ Number.exactBound := by
  obtain ⟨ts, hlists, htiles⟩ := h.tiles
  obtain ⟨items, entries, hopen, hholds, hnodup⟩ := hs.holds h.returned
  obtain ⟨items', _, o, hopen', hu, _, hbranch⟩ := hs.exists_branch hr h.returned h.isFile h.ends
  cases hopen.symm.trans hopen'
  obtain ⟨hclean, htokens⟩ := hs.tokens_of_lists hr h.returned hopen hu hlists
  have hlength := hs.exact h.returned h.isFile h.text
  have hfull := hu.full hclean hopen (List.Subset.refl items) h.populated
  have htoken := hs.elementOf?_token hr h.returned hchild h.ends.2
  obtain ⟨slot, hitem⟩ := hchild.exists_item hs.grounded hopen
  obtain ⟨last, _, hle, heof, _⟩ : ∃ last, 0 ≤ last ∧ last ≤ source.length ∧ eof.2.fullStart = .ofNat last ∧ _ := by
    rw [List.map_append, List.map_singleton] at htiles
    exact htiles.fullStart_le
  refine ⟨o, last, hle, hbranch hclean, ?_, heof, hlength⟩
  exact hu.laid_of_last hclean hfull ((Outline.sublist_tokens o).nodup (hu.nodup hs hr hholds hnodup)) (htokens ▸ htiles)
    hlength (by rw [htokens, List.getLast?_concat]) hitem htoken heof (Nat.le_trans hle hlength)

/-- Below a source file, every node ends between the two ends of its span, and the spans of the nodes among the children
of a node fill what is left of the file. -/
structure Partitions (s : Store) (root : ObjectId) (last : Nat) : Prop where
  bounds : ∀ n, s.Reaches root n → n ≠ root → ∃ a b b', a ≤ b ∧ b ≤ b' ∧ b' ≤ last ∧
    s.fullStart (.object n) = .ok (.ofNat a) ∧ s.stop (.object n) = .ok (.number (.ofNat b)) ∧
    s.endPosition (.object n) = .ok (.number (.ofNat b'))
  children : ∀ p, s.Reaches root p → ∃ cs first, Walk.ListsChildren s .nodes (.object p) (cs.map (.node · none)) ∧
    s.Abuts first cs last ∧ cs.Pairwise fun c c' => ∀ offset,
      ¬ (s.spanContains (.number offset) c = .ok true ∧ s.spanContains (.number offset) c' = .ok true)

/-- In a file that is paved, the spans of siblings fill what is left of the file. -/
theorem spans_partition {source : Text}
    (h : Reached (fun s made c => c.Harmless s ∧ c.Genuine s made ∧ c.HasEndOfFile) s made)
    (hpaved : s.Paved made root source eof) :
    ∃ last ≤ source.length, eof.2.fullStart = .ofNat last ∧ s.Partitions root last := by
  have hs := h.sound And.left
  have hr := h.rooted fun h => ⟨h.1, h.2.1⟩
  have hchild := h.child_endOfFile (fun h => ⟨h.1, h.2.2⟩) hpaved.returned hpaved.isFile hpaved.ends.1
  obtain ⟨o, last, hle, hbranch, hlaid, heof, hlength⟩ := hpaved.exists_laid hs hr hchild
  have hlast := Nat.le_trans hle hlength
  refine ⟨last, hle, heof, fun n hn hne => ?_, fun p hp => ?_⟩
  · obtain ⟨p, hp, hc⟩ := (Relation.ReflTransGen.cases_tail hn).resolve_left hne
    obtain ⟨above, _, habove, hlaidAbove⟩ := hbranch.laid_of_reaches hlaid hp
    obtain ⟨start, habuts⟩ := habove.abuts hlaidAbove heof hlast
    obtain ⟨below, hpart⟩ := (habove.outlines.childNode_iff habove.clean).mp hc
    obtain ⟨a, b, b', _, hbounds⟩ := habuts.bounds (Outline.mem_tops_of_part hpart)
    exact ⟨a, b, b', hbounds⟩
  · obtain ⟨below, _, hbelow, hlaidBelow⟩ := hbranch.laid_of_reaches hlaid hp
    obtain ⟨start, habuts⟩ := hbelow.abuts hlaidBelow heof hlast
    exact ⟨below.tops, start, hbelow.outlines.listsChildren hbelow.clean, habuts, habuts.disjoint hlast⟩

end Store

/-! ## Runs -/

namespace Sample

open Store

theorem ends_nested :
    Reached (fun s made c => c.Harmless s ∧ c.Genuine s made ∧ c.HasEndOfFile) nested [25, 22, 20, 18] :=
  (reached_stock _).runAll [leafCall 12, leafCall 13, leafCall 18, documentCall letters [22, 20] 15]
    (.cons rfl (.cons rfl (.cons rfl (.cons rfl .nil)))) (by decide +kernel)

/-- The span of the first leaf ends with the second one, and that of the leaf in it with the file. -/
theorem spans_partition_nested :
    Reached (fun s made c => c.Harmless s ∧ c.Genuine s made ∧ c.HasEndOfFile) nested [25, 22, 20, 18] ∧
    nested.Paved [25, 22, 20, 18] 25 "ab" (15, ⟨.ofNat 0, 2, 2, 0⟩) ∧
    (∃ last ≤ 2, (2 : Number) = .ofNat last ∧ nested.Partitions 25 last) ∧
    (nested.endPosition (.object 22)).toOption = some (.number 1) ∧
    (nested.endPosition (.object 18)).toOption = some (.number 2) :=
  ⟨ends_nested, paved_nested, spans_partition ends_nested paved_nested, by decide +kernel⟩

theorem ends_mimicked : Reached (fun s _ c => c.Harmless s ∧ c.HasEndOfFile) mimicked [30, 25, 22, 20, 18] :=
  (reached_extend_nested (ends_nested.mono fun _ _ _ h => ⟨h.1, h.2.2⟩)).runAll
    [documentCall ⟨"xyz", by decide⟩ [26] 27] (.cons rfl .nil) (by decide +kernel)

/-- Spans are no partitions if some node does not end between the two ends of its span. -/
theorem not_partitions_of_ends {s : Store} {root m : ObjectId} {o : Outline} {limit : Nat} {eof : Number} (depth : Nat)
    (h : s.outline? depth root = some o ∧ .node m none ∈ o.elements ∧ m ≠ root ∧
      ∀ b' ≤ limit, ∀ b ≤ b', ¬ ((s.stop (.object m)).toOption = some (.number (.ofNat b)) ∧
        (s.endPosition (.object m)).toOption = some (.number (.ofNat b')))) :
    ¬ ∃ last ≤ limit, eof = .ofNat last ∧ s.Partitions root last := by
  obtain ⟨houtline, hmem, hne, hends⟩ := h
  rintro ⟨last, hlast, _, hpartitions⟩
  obtain ⟨items, hopen, hu⟩ := outlines_of_outline? houtline
  obtain ⟨_, b, b', _, hle, hb', _, hstop, hend⟩ :=
    hpartitions.bounds m (hu.reaches hopen (List.Subset.refl items) hmem) hne
  exact hends b' (Nat.le_trans hb' hlast) b hle ⟨by rw [hstop]; rfl, by rw [hend]; rfl⟩

/-- Neither of the two conditions can be left out. With a second document of an object that extends a node, the span of
the inner leaf ends before its own end; with a slot that is set through an error, the span of the leaf has no end. -/
theorem not_partitions_mimicked_misplaced :
    (Reached (fun s _ c => c.Harmless s ∧ c.HasEndOfFile) mimicked [30, 25, 22, 20, 18] ∧
      mimicked.Paved [30, 25, 22, 20, 18] 25 "ab" (15, ⟨.ofNat 0, 2, 2, 0⟩) ∧
      ¬ ∃ last ≤ 2, (2 : Number) = .ofNat last ∧ mimicked.Partitions 25 last) ∧
    Reached (fun s made c => c.Genuine s made ∧ c.HasEndOfFile) misplaced [23, 20, 18] ∧
      misplaced.Paved [23, 20, 18] 23 "ab" (15, ⟨.ofNat 0, 2, 2, 0⟩) ∧
      ¬ ∃ last ≤ 2, (2 : Number) = .ofNat last ∧ misplaced.Partitions 23 last := by
  have hmisplaced : Reached (fun s made c => c.Genuine s made ∧ c.HasEndOfFile) misplaced [23, 20, 18] :=
    (reached_stock _).runAll [leafCall 14, hookCall (.object 13), documentCall letters [20] 15, hookCall (.object 18)]
      (.cons rfl (.cons rfl (.cons rfl (.cons rfl .nil)))) (by decide +kernel)
  refine ⟨⟨ends_mimicked, paved_mimicked_misplaced.1, ?_⟩, hmisplaced, paved_mimicked_misplaced.2, ?_⟩
  · exact not_partitions_of_ends (m := 18) (o := nestedOutline) 3 (by decide +kernel)
  · exact not_partitions_of_ends (m := 18) (o := misplacedOutline) 3 (by decide +kernel)

end Sample

end LosslessSyntax
