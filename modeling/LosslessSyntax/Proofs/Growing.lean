import LosslessSyntax.Proofs.Making
import LosslessSyntax.Proofs.Measures

/-!
# Trees that grow

When making a node succeeds, and what is below it then.

* `Store.Fills`: something is given for every slot of a layout, and nothing but children that are objects. If these are
  loose and distinct, the node is made (`create_of_fills`, `addFile_of_fills`).
* `Store.Grows`: objects and the outline of what is below them, all of it made by the library.
* `Store.Planted`: work that makes some loose objects of loose tokens, and touches no other object. Pieces of such work
  one after the other make all their objects in a row (`Planted.append`), of which a node can be made (`Planted.node`).
-/

namespace LosslessSyntax

/-- What a slot has to be declared as to take what is given. -/
def SlotValue.arity : SlotValue → Value
  | .one _ => Layout.one
  | .many _ => Layout.many

/-- What becomes of given input that passes its check; a missing value becomes `null`. -/
def SlotValue.settled : SlotValue → SlotValue
  | .one v => .one (if v.isMissing then .null else v)
  | .many vs => .many vs

theorem SlotValue.children_settled (given : SlotValue) : given.settled.children = given.children := by
  cases given with
  | one v => cases v <;> rfl
  | many vs => rfl

theorem Members.get?_of_mem {α : Type} {m : Members α} (hnodup : m.names.Nodup) {entry : Text × α} (h : entry ∈ m) :
    m.get? entry.1 = some entry.2 := by
  induction m with
  | nil => cases h
  | cons first rest ih =>
    obtain ⟨hfirst, hrest⟩ := List.nodup_cons.mp hnodup
    rw [get?_cons]
    rcases List.mem_cons.mp h with rfl | hmem
    · rw [if_pos rfl]
    · have hname : entry.1 ≠ first.1 := fun heq => hfirst (List.mem_map.mpr ⟨entry, hmem, heq⟩)
      rw [if_neg hname, ih hrest hmem]

namespace Outline

/-- Puts the children of one outline before those of another one. -/
def append : Outline → Outline → Outline
  | .empty, later => later
  | .failure f rest, later => .failure f (rest.append later)
  | .token id t rest, later => .token id t (rest.append later)
  | .node id t below rest, later => .node id t below (rest.append later)

theorem tokens_append (o later : Outline) : (o.append later).tokens = o.tokens ++ later.tokens := by
  induction o with
  | empty => rfl
  | failure f rest ih => exact ih
  | token id t rest ih => exact congrArg (List.cons (id, t)) ih
  | node id t below rest ihb ih => rw [append, tokens, tokens, ih, List.append_assoc]

/-- The nodes among the children themselves, without those below them. -/
def tops : Outline → List ObjectId
  | .empty => []
  | .failure _ rest => rest.tops
  | .token _ _ rest => rest.tops
  | .node id _ _ rest => id :: rest.tops

theorem tops_append (o later : Outline) : (o.append later).tops = o.tops ++ later.tops := by
  induction o with
  | empty => rfl
  | failure f rest ih => exact ih
  | token id t rest ih => exact ih
  | node id t below rest ihb ih => exact congrArg (List.cons id) ih

/-- The nodes among the children have the given parent, and each of them is there once; every node below them has the
one for parent in which it stands. -/
def Linked (s : Store) : Option ObjectId → Outline → Prop
  | _, .empty => True
  | p, .failure _ rest => rest.Linked s p
  | p, .token _ _ rest => rest.Linked s p
  | p, .node id _ below rest => s.parent? id = p ∧ id ∉ rest.tops ∧ below.Linked s (some id) ∧ rest.Linked s p

theorem Linked.append {s : Store} {p : Option ObjectId} {o later : Outline} (h : o.Linked s p)
    (hlater : later.Linked s p) (hdisjoint : o.tops.Disjoint later.tops) : (o.append later).Linked s p := by
  induction o with
  | empty => exact hlater
  | failure f rest ih => exact ih h hdisjoint
  | token id t rest ih => exact ih h hdisjoint
  | node id t below rest ihb ih =>
    obtain ⟨hparent, hid, hbelow, hrest⟩ := h
    obtain ⟨hout, hdisjoint⟩ := List.disjoint_cons_left.mp hdisjoint
    refine ⟨hparent, ?_, hbelow, ih hrest hdisjoint⟩
    rw [tops_append, List.mem_append, not_or]
    exact ⟨hid, hout⟩

/-- Linking other objects changes no parent that is there. -/
theorem Linked.grown {s t : Store} {p q : ObjectId} {cs : List ObjectId} {o : Outline} (h : o.Linked s (some p))
    (hg : s.Grown t q cs) : o.Linked t (some p) := by
  induction o generalizing p with
  | empty => trivial
  | failure f rest ih => exact ih h
  | token id t rest ih => exact ih h
  | node id tok below rest ihb ih =>
    obtain ⟨hparent, hid, hbelow, hrest⟩ := h
    refine ⟨?_, hid, ihb hbelow, ih hrest⟩
    rw [hg.parent id, if_neg, hparent]
    rintro ⟨hmem, hnode⟩
    rw [(hg.nodes id hmem hnode).2] at hparent
    cases hparent

end Outline

namespace Store

variable {s t u : Store} {v : Variant} {slots : Members SlotValue} {cs : List ObjectId}

/-! ## Nodes that are made -/

/-- Something is given for every slot of a layout, all in all the given children. -/
structure Fills (slots : Members SlotValue) (layout : Layout) (cs : List ObjectId) : Prop where
  declared : slots.map (fun entry => (entry.1, entry.2.arity)) = layout
  distinct : layout.names.Nodup
  plain : layout.has baseName = false
  children : slots.flatMap (·.2.children) = cs.map .object

/-- A child that can be put into a slot. -/
structure Loose (s : Store) (c : ObjectId) : Prop where
  element : s.isElement (.object c) = true
  single : s.isList (.object c) = false
  free : s.Free c

theorem Loose.lt_size {c : ObjectId} (h : s.Loose c) : c < s.size := by
  obtain ⟨id, heq, hid⟩ := isElement_object h.element
  cases heq
  exact hid

namespace Fills

theorem names (h : Fills slots v.layout cs) : slots.names = v.layout.names := by
  rw [← h.declared, Members.names, Members.names, List.map_map]
  rfl

theorem read (h : Fills slots v.layout cs) {entry : Text × SlotValue} (hentry : entry ∈ slots) :
    (Input.ofMembers slots).read entry.1 = entry.2 := by
  show (slots.get? entry.1).getD _ = _
  rw [Members.get?_of_mem (h.names ▸ h.distinct) hentry]
  rfl

theorem unknownSlot? (h : Fills slots v.layout cs) : unknownSlot? v.plan (.ofMembers slots) = none := by
  refine List.find?_eq_none.mpr fun slot hslot => ?_
  have hmem : slot ∈ v.layout.names := by
    rw [← h.names]
    exact hslot
  obtain ⟨entry, hentry, rfl⟩ := List.mem_map.mp hmem
  have harity : v.layout.arity? entry.1 = some entry.2 := by
    rw [Layout.arity?, Members.get?_of_mem h.distinct hentry]
    rw [← h.declared] at hentry
    obtain ⟨⟨slot, given⟩, _, rfl⟩ := List.mem_map.mp hentry
    cases given <;> rfl
  simp [Variant.plan, harity]

theorem child (h : Fills slots v.layout cs) {entry : Text × SlotValue} (hentry : entry ∈ slots) {child : Value}
    (hchild : child ∈ entry.2.children) : ∃ c ∈ cs, child = .object c := by
  have hmem : child ∈ cs.map .object := h.children ▸ List.mem_flatMap.mpr ⟨entry, hentry, hchild⟩
  obtain ⟨c, hc, rfl⟩ := List.mem_map.mp hmem
  exact ⟨c, hc, rfl⟩

theorem within (h : Fills slots v.layout cs) (hs : s.Grounded) (hloose : ∀ c ∈ cs, s.Loose c) (slot : Text) :
    ((Input.ofMembers slots).read slot).Within s.size := by
  refine Input.within_ofMembers (hs.ground_lt .record) (fun entry hentry => ?_) slot
  have hchildren : ∀ child ∈ entry.2.children, child.Within s.size := by
    intro child hchild
    obtain ⟨c, hc, rfl⟩ := h.child hentry hchild
    exact (hloose c hc).lt_size
  obtain ⟨slot, given⟩ := entry
  cases given with
  | many vs => exact hchildren
  | one v =>
    cases v with
    | object id => exact hchildren (.object id) List.mem_cons_self
    | _ => trivial

/-- Loose children pass the checks of their slots. -/
theorem checkSlot (h : Fills slots v.layout cs) (hloose : ∀ c ∈ cs, s.Loose c) (kind : Value)
    {entry : Text × Value} (hentry : entry ∈ v.layout) : ∃ given, (entry.1, given) ∈ slots ∧
      s.checkSlot kind entry.1 entry.2 ((Input.ofMembers slots).read entry.1) = .ok given.settled := by
  rw [← h.declared] at hentry
  obtain ⟨⟨slot, given⟩, hmem, rfl⟩ := List.mem_map.mp hentry
  have hloose : ∀ child ∈ given.children, s.isElement child = true ∧ s.isList child = false := by
    intro child hchild
    obtain ⟨c, hc, rfl⟩ := h.child hmem hchild
    exact ⟨(hloose c hc).element, (hloose c hc).single⟩
  refine ⟨given, hmem, ?_⟩
  rw [h.read hmem]
  cases given with
  | many vs =>
    have hall : vs.all s.isElement = true := List.all_eq_true.mpr fun w hw => (hloose w hw).1
    show s.checkEntries kind slot vs = _
    rw [checkEntries, if_pos hall]
    rfl
  | one w =>
    show s.checkOne kind slot (.one w) = _
    rw [checkOne, SlotValue.settled]
    cases hmissing : w.isMissing with
    | true => rfl
    | false =>
      obtain ⟨helement, hlist⟩ := hloose w (by simp [SlotValue.children, hmissing])
      simp [helement, hlist, Attempt.pure_eq_ok]

/-- The record of slots has what was given. -/
theorem own (h : Fills slots v.layout cs) (hloose : ∀ c ∈ cs, s.Loose c) {m : Members Value} {base : Option ObjectId}
    (hfill : Filling s v.plan (.ofMembers slots) v.layout.names m base true t) {slot : Text} {given : SlotValue}
    (hmem : (slot, given) ∈ slots) : ∃ w, m.get? slot = some w ∧ t.Placed s.size given.settled w := by
  have hslot : slot ∈ v.layout.names := h.names ▸ List.mem_map.mpr ⟨_, hmem, rfl⟩
  have hhas := (hfill.complete slot hslot).resolve_left (Members.ne_of_has h.plain hslot)
  obtain ⟨w, hw⟩ := Members.exists_get? hhas
  obtain ⟨arity, checked, harity, hcheck, hplaced⟩ := hfill.own hw
  obtain ⟨given', hmem', hchecked⟩ := h.checkSlot hloose v.plan.kind harity
  have hsame : given' = given := (h.read hmem').symm.trans (h.read hmem)
  rw [hchecked] at hcheck
  cases hcheck
  exact ⟨w, hw, hsame ▸ hplaced⟩

end Fills

namespace Fills

/-- Children that are loose and distinct can be attached. -/
theorem attachable (h : Fills slots v.layout cs) (hs : s.Grounded) (hloose : ∀ c ∈ cs, s.Loose c) (hnodup : cs.Nodup)
    {m : Members Value} {base : Option ObjectId}
    (hfill : Filling s v.plan (.ofMembers slots) v.layout.names m base true t) :
    t.attachable v.plan s.size = .ok (cs.map .object) := by
  have hvisited : (slots.map fun entry => (entry.1, Sequence.ofList entry.2.children)).flatMap (·.2.visited 2) =
      cs.map .object := by
    rw [List.flatMap_map, ← h.children]
    exact List.flatMap_congr fun entry _ => Sequence.visited_ofList ..
  refine attachable_eq_ok.mpr ⟨slots.map fun entry => (entry.1, .ofList entry.2.children), ?_, ?_, hvisited.symm, ?_, ?_⟩
  · rw [List.map_map]
    exact h.names
  · intro met hmet
    obtain ⟨⟨slot, given⟩, hmem, rfl⟩ := List.mem_map.mp hmet
    obtain ⟨w, hw, _⟩ := h.own hloose hfill hmem
    obtain ⟨arity, checked, harity, hcheck, hiterated, _⟩ := hfill.iterated_own hs hw
    obtain ⟨given', hmem', hchecked⟩ := h.checkSlot hloose v.plan.kind harity
    have hsame : given' = given := (h.read hmem').symm.trans (h.read hmem)
    rw [hchecked, hsame] at hcheck
    cases hcheck
    rw [hfill.lookup_own hs hw, hiterated, SlotValue.children_settled]
  · exact hnodup.map fun _ _ heq => Value.object.inj heq
  · intro met hmet child hchild
    obtain ⟨⟨slot, given⟩, hmem, rfl⟩ := List.mem_map.mp hmet
    rw [Sequence.visited_ofList] at hchild
    obtain ⟨c, hc, rfl⟩ := h.child hmem hchild
    have hlt := (hloose c hc).lt_size
    refine (checkChild_object v.plan.kind slot (Nat.lt_of_lt_of_le hlt hfill.old.size_le)).mpr ?_
    exact (hfill.old.free_iff hs hlt).mpr (hloose c hc).free

/-- Nothing speaks against a node that is made of loose and distinct children. -/
theorem not_refused (h : Fills slots v.layout cs) (hs : s.Grounded) (hloose : ∀ c ∈ cs, s.Loose c)
    (hnodup : cs.Nodup) {choose : ObjectId → Store → Attempt Node}
    (hchoose : ∀ {m base t}, Filling s v.plan (.ofMembers slots) v.layout.names m base true t →
      ∃ n, choose s.size t = .ok n) {failure : Failure} :
    ¬ s.Refused v.plan (.ofMembers slots) choose failure := by
  rintro (hunknown | ⟨entry, hentry, hcheck⟩ | ⟨m, base, t, hfill, hfails | hfails⟩)
  · rw [h.unknownSlot?] at hunknown
    cases hunknown
  · obtain ⟨_, _, hchecked⟩ := h.checkSlot hloose v.plan.kind hentry
    rw [hchecked] at hcheck
    cases hcheck
  · obtain ⟨n, hn⟩ := hchoose hfill
    rw [hn] at hfails
    cases hfails
  · rw [h.attachable hs hloose hnodup hfill] at hfails
    cases hfails

theorem harmless (h : Fills slots v.layout cs) : (Input.ofMembers slots).Harmless s v.layout :=
  Input.harmless_of_plain h.plain _

/-- The children of the node are those that were given. -/
theorem children_of_made (h : Fills slots v.layout cs) (hloose : ∀ c ∈ cs, s.Loose c) {id : ObjectId} {n : Node}
    {rows : List Row} (hvariant : n.variant = v) (hmade : s.Made v.plan (.ofMembers slots) id n rows t) :
    rows.flatMap Row.children = cs := by
  have hrow : ∀ row ∈ rows, row.children.map .object = ((Input.ofMembers slots).read row.slot).children := by
    intro row hrow
    have hslot : row.slot ∈ v.layout.names := by
      rw [← hvariant, show n.variant.layout.names = n.variant.slotNames from rfl, ← hmade.shows.slots]
      exact List.mem_map.mpr ⟨row, hrow, rfl⟩
    obtain ⟨arity, checked, harity, hcheck, hchildren, _⟩ := hmade.given row hrow (Members.ne_of_has h.plain hslot)
    obtain ⟨given, hmem, hchecked⟩ := h.checkSlot hloose v.plan.kind harity
    rw [hchecked] at hcheck
    cases hcheck
    rw [hchildren, SlotValue.children_settled, h.read hmem]
  have hobjects : (rows.flatMap Row.children).map Value.object = cs.map .object :=
    calc (rows.flatMap Row.children).map Value.object
        = rows.flatMap fun row => ((Input.ofMembers slots).read row.slot).children := by
          rw [List.map_flatMap]
          exact List.flatMap_congr hrow
      _ = slots.names.flatMap fun slot => ((Input.ofMembers slots).read slot).children := by
          rw [h.names, ← hvariant, show n.variant.layout.names = n.variant.slotNames from rfl, ← hmade.shows.slots,
            List.flatMap_map]
      _ = slots.flatMap (·.2.children) := by
          rw [Members.names, List.flatMap_map]
          exact List.flatMap_congr fun entry hentry => by rw [h.read hentry]
      _ = cs.map .object := h.children
  exact List.map_injective_iff.mpr (fun _ _ heq => Value.object.inj heq) hobjects

end Fills

/-- A node can be made of loose and distinct children. -/
theorem create_of_fills (hs : s.Grounded) (hc : s.Closed) (hv : v.self < s.size) (hfile : v.isSourceFile = false)
    (h : Fills slots v.layout cs) (hloose : ∀ c ∈ cs, s.Loose c) (hnodup : cs.Nodup) :
    ∃ id n rows t, create v (.ofMembers slots) s = (.ok id, t) ∧ s.Made v.plan (.ofMembers slots) id n rows t ∧
      n.file = none ∧ rows.flatMap Row.children = cs := by
  rcases create_spec hs hc hv (h.within hs hloose) h.harmless with
    ⟨id, n, rows, t, hrun, hmade, hvariant, hnone⟩ | ⟨failure, t, hrun, ⟨htrue, _⟩ | hfails⟩
  · exact ⟨id, n, rows, t, hrun, hmade, hnone, h.children_of_made hloose hvariant hmade⟩
  · rw [hfile] at htrue
    cases htrue
  · refine absurd (hfails.refused h.plain) (h.not_refused hs hloose hnodup fun _ => ?_)
    exact ⟨_, rfl⟩

/-- What is given for a slot by itself stands there. -/
theorem Fills.lookup_one (h : Fills slots v.layout cs) (hloose : ∀ c ∈ cs, s.Loose c) {id : ObjectId} {n : Node}
    {rows : List Row} (hvariant : n.variant = v) (hmade : s.Made v.plan (.ofMembers slots) id n rows t) {slot : Text}
    {c : ObjectId} (hslot : (slot, .one (.object c)) ∈ slots) : t.lookup n.slots slot = .object c := by
  have hmem : slot ∈ rows.map Row.slot := by
    rw [hmade.shows.slots, hvariant, show v.slotNames = v.layout.names from rfl, ← h.names]
    exact List.mem_map.mpr ⟨_, hslot, rfl⟩
  obtain ⟨row, hrow, rfl⟩ := List.mem_map.mp hmem
  have hname : row.slot ∈ v.layout.names := h.names ▸ List.mem_map.mpr ⟨_, hslot, rfl⟩
  obtain ⟨arity, checked, harity, hcheck, _, hstands⟩ := hmade.given row hrow (Members.ne_of_has h.plain hname)
  obtain ⟨given, hgiven, hchecked⟩ := h.checkSlot hloose v.plan.kind harity
  obtain rfl : given = .one (.object c) := (h.read hgiven).symm.trans (h.read hslot)
  rw [hchecked] at hcheck
  cases hcheck
  rw [hmade.shows.lookup row hrow]
  exact hstands

/-- A source file can be made of loose and distinct children, if there is an end-of-file token in the slot for it. -/
theorem addFile_of_fills (hs : s.Grounded) (hc : s.Closed) (hv : v.self < s.size) (source : Source) {kind : Value}
    (h : Fills slots v.layout cs) (hloose : ∀ c ∈ cs, s.Loose c) (hnodup : cs.Nodup) {endOfFile : ObjectId}
    {eof : Token} (hslot : (endOfFileSlot, .one (.object endOfFile)) ∈ slots) (heof : s.token? endOfFile = some eof)
    (hkind : eof.kind.same kind = true) :
    ∃ id n rows t, addFile v kind source (.ofMembers slots) s = (.ok id, t) ∧
      s.Made v.plan (.ofMembers slots) id n rows t ∧ n.file = some { source, endOfFile } ∧
      rows.flatMap Row.children = cs := by
  rcases addFile_spec hs hc hv kind source (h.within hs hloose) h.harmless with
    ⟨id, n, rows, t, hrun, hmade, hvariant, endOfFile', hfile, hend⟩ | ⟨failure, t, hrun, hfails⟩
  · have hlookup := (endOfFileToken?_eq_some.mp hend).1
    rw [h.lookup_one hloose hvariant hmade hslot] at hlookup
    cases hlookup
    exact ⟨id, n, rows, t, hrun, hmade, hfile, h.children_of_made hloose hvariant hmade⟩
  · refine absurd (hfails.refused h.plain) (h.not_refused hs hloose hnodup fun hfill => ?_)
    obtain ⟨w, hw, hplaced⟩ := h.own hloose hfill hslot
    have hlookup := hfill.lookup_own hs hw
    rw [show w = .object endOfFile from hplaced] at hlookup
    have htoken := (hs.token?_keeps hfill.old.keeps (lt_size_of_token? heof)).trans heof
    refine ⟨{ variant := v, slots := s.size, file := some { source, endOfFile } }, ?_⟩
    rw [fileNode, endOfFileToken?_eq_some.mpr ⟨hlookup, eof, htoken, hkind⟩]

/-! ## Objects with outlines -/

/-- Objects and the outline of what is below them: tokens, and nodes that show children, each of which was there
before. -/
inductive Grows (s : Store) : List ObjectId → Outline → Prop
  | nil : Grows s [] .empty
  | token {id : ObjectId} {cs : List ObjectId} {t : Token} {rest : Outline}
      (read : s.elementOf? (.object id) = some (.token id t)) (tail : Grows s cs rest) :
      Grows s (id :: cs) (.token id t rest)
  | node {id : ObjectId} {cs : List ObjectId} {n : Node} {rows : List Row} {below rest : Outline}
      (shows : s.Shows id n rows) (some : rows.flatMap Row.children ≠ [])
      (older : ∀ c ∈ rows.flatMap Row.children, c < id) (inside : Grows s (rows.flatMap Row.children) below)
      (tail : Grows s cs rest) : Grows s (id :: cs) (.node id none below rest)

theorem lt_size_of_elementOf? {id : ObjectId} {e : Element} (h : s.elementOf? (.object id) = some e) : id < s.size := by
  simp only [elementOf?] at h
  split at h
  · rename_i hn
    exact lt_size_of_isNode hn
  · obtain ⟨t, ht, _⟩ := Option.map_eq_some_iff.mp h
    exact lt_size_of_token? ht

/-- The items of a node are its children, each in a slot. -/
theorem Shows.exists_entries (hs : s.Grounded) {id : ObjectId} {n : Node} {rows : List Row} (h : s.Shows id n rows) :
    ∃ entries : List (Text × ObjectId), s.items (.object id) = .ok (entries.map fun entry =>
      .value entry.1 (.object entry.2)) ∧ entries.map Prod.snd = rows.flatMap Row.children := by
  refine ⟨rows.flatMap fun row => row.children.map (row.slot, ·), ?_, ?_⟩
  · rw [h.items hs, List.map_flatMap]
    simp only [List.map_map, Function.comp_def]
  · rw [List.map_flatMap]
    simp only [List.map_map, Function.comp_def, List.map_id']

namespace Grows

variable {o o' : Outline} {cs' : List ObjectId}

theorem keeps (hs : s.Grounded) (hk : s.Keeps t) (h : s.Grows cs o) : t.Grows cs o := by
  induction h with
  | nil => exact .nil
  | @token id cs tok rest read tail ih =>
    have hlt : (Value.object id).Within s.size := lt_size_of_elementOf? read
    exact .token (by rw [hs.elementOf?_keeps hk hlt, read]) ih
  | node shows some older inside tail ihb ih => exact .node (shows.keeps hs hk) some older ihb ih

theorem append (h : s.Grows cs o) (h' : s.Grows cs' o') : s.Grows (cs ++ cs') (o.append o') := by
  induction h with
  | nil => exact h'
  | token read tail ih => exact .token read ih
  | node shows some older inside tail ihb ih => exact .node shows some older inside ih

theorem clean (h : s.Grows cs o) : o.Clean := by
  induction h with
  | nil => trivial
  | token read tail ih => exact ih
  | node shows some older inside tail ihb ih => exact ⟨rfl, ihb, ih⟩

theorem exists_first (h : s.Grows cs o) (hcs : cs ≠ []) : ∃ e, o.first? = some e := by
  induction h with
  | nil => exact absurd rfl hcs
  | token read tail ih => exact ⟨_, rfl⟩
  | node shows some older inside tail ihb ih => exact ihb some

/-- The tokens are no nodes. -/
theorem isNode_token? (h : s.Grows cs o) : ∀ e ∈ o.tokens, s.isNode e.1 = false ∧ s.token? e.1 = some e.2 := by
  induction h with
  | nil => exact fun e he => absurd he List.not_mem_nil
  | @token id cs tok rest read tail ih =>
    rintro e (_ | ⟨_, he⟩)
    · simp only [elementOf?] at read
      split at read
      · cases read
      · rename_i hnode
        obtain ⟨t, ht, heq⟩ := Option.map_eq_some_iff.mp read
        cases heq
        exact ⟨Bool.eq_false_of_not_eq_true hnode, ht⟩
    · exact ih e he
  | node shows some older inside tail ihb ih =>
    intro e he
    rcases List.mem_append.mp he with he | he
    · exact ihb e he
    · exact ih e he

/-- Children in any slots of a node unfold to their outline. -/
theorem unfolds (hs : s.Grounded) (h : s.Grows cs o) (owner : ObjectId) {entries : List (Text × ObjectId)}
    (hentries : entries.map Prod.snd = cs) :
    s.Unfolds owner (entries.map fun entry => .value entry.1 (.object entry.2)) o := by
  induction h generalizing owner entries with
  | nil =>
    rw [List.map_eq_nil_iff.mp hentries]
    exact .empty
  | token read tail ih =>
    obtain ⟨entry, entries, rfl, rfl, hrest⟩ := List.map_eq_cons_iff.mp hentries
    exact .token (read_value_eq_ok.mpr read) (ih owner hrest)
  | node shows some older inside tail ihb ih =>
    obtain ⟨entry, entries, rfl, rfl, hrest⟩ := List.map_eq_cons_iff.mp hentries
    have hread : s.elementOf? (.object entry.2) = Option.some (.node entry.2 none) := by
      rw [elementOf?, shows.isNode hs, shows.token?_eq_none hs]
      rfl
    obtain ⟨inner, hitems, hinner⟩ := shows.exists_entries hs
    exact .node (read_value_eq_ok.mpr hread) hitems (ihb entry.2 hinner) (ih owner hrest)

theorem lt_size (h : s.Grows cs o) : ∀ c ∈ cs, c < s.size := by
  induction h with
  | nil => exact fun c hc => absurd hc List.not_mem_nil
  | token read tail ih => exact List.forall_mem_cons.mpr ⟨lt_size_of_elementOf? read, ih⟩
  | node shows some older inside tail ihb ih => exact List.forall_mem_cons.mpr ⟨shows.lt_size, ih⟩

theorem tops_subset (h : s.Grows cs o) : o.tops ⊆ cs := by
  induction h with
  | nil => exact List.Subset.refl _
  | token read tail ih => exact List.subset_cons_of_subset _ ih
  | node shows some older inside tail ihb ih => exact List.cons_subset_cons _ ih

/-- Links stay as they are if the parents of all objects do. -/
theorem linked_congr (h : s.Grows cs o) (hparent : ∀ c : Nat, c < s.size → t.parent? c = s.parent? c)
    {p : Option ObjectId} (hlinked : o.Linked s p) : o.Linked t p := by
  induction h generalizing p with
  | nil => trivial
  | token read tail ih => exact ih hlinked
  | node shows some older inside tail ihb ih =>
    obtain ⟨hp, hid, hbelow, hrest⟩ := hlinked
    exact ⟨(hparent _ shows.lt_size).trans hp, hid, ihb hbelow, ih hrest⟩

/-- Objects that are linked to a new one have it for parent, and what is below them stays as it was. -/
theorem linked_grown (h : s.Grows cs o) (hs : s.Grounded) {q : ObjectId} (hg : s.Grown t q cs')
    (hsub : cs ⊆ cs') (hlinked : o.Linked s none) : o.Linked t (some q) := by
  induction h with
  | nil => trivial
  | token read tail ih => exact ih (fun _ hc => hsub (List.mem_cons_of_mem _ hc)) hlinked
  | node shows some older inside tail ihb ih =>
    obtain ⟨_, hid, hbelow, hrest⟩ := hlinked
    refine ⟨?_, hid, hbelow.grown hg, ih (fun _ hc => hsub (List.mem_cons_of_mem _ hc)) hrest⟩
    rw [hg.parent, if_pos ⟨hsub List.mem_cons_self, (shows.keeps hs hg.keeps).isNode hg.grounded⟩]

end Grows

/-- A node that shows some children, each of which was there before, with the outline of what is below them. -/
def Bears (s : Store) (id : ObjectId) (o : Outline) : Prop :=
  ∃ n rows, s.Shows id n rows ∧ rows.flatMap Row.children ≠ [] ∧ (∀ c ∈ rows.flatMap Row.children, c < id) ∧
    s.Grows (rows.flatMap Row.children) o

namespace Bears

variable {id : ObjectId} {o : Outline}

theorem outlines (hs : s.Grounded) (h : s.Bears id o) : s.Outlines id o := by
  obtain ⟨n, rows, hshows, _, _, hgrows⟩ := h
  obtain ⟨entries, hitems, hentries⟩ := hshows.exists_entries hs
  exact ⟨_, hitems, hgrows.unfolds hs id hentries⟩

theorem clean (h : s.Bears id o) : o.Clean := by
  obtain ⟨_, _, _, _, _, hgrows⟩ := h
  exact hgrows.clean

theorem exists_first (h : s.Bears id o) : ∃ e, o.first? = some e := by
  obtain ⟨_, _, _, hsome, _, hgrows⟩ := h
  exact hgrows.exists_first hsome

end Bears

/-- The nodes among objects with an outline have outlines themselves. -/
theorem Grows.bears {o : Outline} (h : s.Grows cs o) {c : ObjectId} (hc : c ∈ cs)
    (hn : s.isNode c = true) : ∃ below, s.Bears c below := by
  induction h with
  | nil => cases hc
  | @token id cs t rest read tail ih =>
    rcases List.mem_cons.mp hc with rfl | hc
    · simp [elementOf?, hn] at read
    · exact ih hc
  | @node id cs n rows below rest shows some older inside tail ihb ih =>
    rcases List.mem_cons.mp hc with rfl | hc
    · exact ⟨below, n, rows, shows, some, older, inside⟩
    · exact ih hc

/-- Every node below a node with an outline has one. -/
theorem Bears.reaches (hs : s.Grounded) {id m : ObjectId} {o : Outline} (h : s.Bears id o) (hm : s.Reaches id m) :
    ∃ below, s.Bears m below := by
  induction hm with
  | refl => exact ⟨o, h⟩
  | tail _ hc ih =>
    obtain ⟨below, n, rows, hshows, _, _, hgrows⟩ := ih
    obtain ⟨hmem, hn⟩ := (hshows.childNode hs).mp hc
    exact hgrows.bears hmem hn

theorem Bears.keeps (hs : s.Grounded) (hk : s.Keeps t) {id : ObjectId} {o : Outline} (h : s.Bears id o) : t.Bears id o := by
  obtain ⟨n, rows, hshows, hsome, holder, hgrows⟩ := h
  exact ⟨n, rows, hshows.keeps hs hk, hsome, holder, hgrows.keeps hs hk⟩

/-- What is reached from a node with an outline was reached before. -/
theorem Bears.reaches_keeps (hs : s.Grounded) (hk : s.Keeps t) (ht : t.Grounded) {id m : ObjectId} {o : Outline}
    (h : s.Bears id o) (hm : t.Reaches id m) : s.Reaches id m := by
  induction hm with
  | refl => exact .refl
  | tail _ hc ih =>
    obtain ⟨below, n, rows, hshows, _, _, hgrows⟩ := h.reaches hs ih
    obtain ⟨hmem, hn⟩ := ((hshows.keeps hs hk).childNode ht).mp hc
    refine ih.tail ((hshows.childNode hs).mpr ⟨hmem, ?_⟩)
    rwa [hs.isNode_keeps hk (hgrows.lt_size _ hmem)] at hn

/-- A node of a source file with the outline of what is below it. The nodes there know where they stand, and the file is
recorded for all of them; its end-of-file token is given. -/
structure Branch (s : Store) (root : ObjectId) (eof : ObjectId × Token) (n : ObjectId) (o : Outline) : Prop where
  grounded : s.Grounded
  outlines : s.Outlines n o
  clean : o.Clean
  linked : o.Linked s (some n)
  shows : ∀ m, s.Reaches n m → ∃ node rows, s.Shows m node rows
  recorded : ∀ m, s.Reaches n m → s.recorded? m = some root
  lookup : s.lookup root endOfFileSlot = .object eof.1
  token : s.token? eof.1 = some eof.2

/-- All nodes below a node with an outline can be listed. -/
theorem Bears.nodesOf (hs : s.Grounded) {id : ObjectId} {o : Outline} (h : s.Bears id o) :
    ∃ nodes, s.nodesOf id = (nodes, none) ∧ (∀ x, s.Reaches id x → x ∈ nodes) ∧ ∀ x ∈ nodes, x < s.size := by
  have hchild : ∀ {x c below}, s.Bears x below → (s.HasChild x c ↔ s.ChildNode x c) := fun ⟨_, _, hshows, _⟩ => by
    rw [hshows.hasChild hs, hshows.childNode hs]
  have hlt : ∀ {x below}, s.Bears x below → x < s.size := fun ⟨_, _, hshows, _⟩ => hshows.lt_size
  have hreach : ∀ x, Relation.ReflTransGen s.HasChild id x ↔ s.Reaches id x := by
    refine fun x => ⟨fun hx => ?_, fun hx => ?_⟩
    · induction hx with
      | refl => exact .refl
      | tail _ hc ih =>
        obtain ⟨below, hbears⟩ := h.reaches hs ih
        exact ih.tail ((hchild hbears).mp hc)
    · induction hx with
      | refl => exact .refl
      | tail hpath hc ih =>
        obtain ⟨below, hbears⟩ := h.reaches hs hpath
        exact ih.tail ((hchild hbears).mpr hc)
  have hnone : (s.nodesOf id).2 = none := by
    refine nodesFrom_none (Nat.lt_succ_of_lt (hlt h)) fun x hx => ?_
    obtain ⟨below, n, rows, hshows, _, holder, _⟩ := h.reaches hs ((hreach x).mp hx)
    exact ⟨_, hshows.childNodes hs, fun c hc => holder c (List.mem_of_mem_filter hc)⟩
  have hmem := mem_nodesFrom (Prod.ext rfl hnone : s.nodesOf id = ((s.nodesOf id).1, none))
  refine ⟨_, Prod.ext rfl hnone, fun x hx => (hmem x).mpr ((hreach x).mpr hx), fun x hx => ?_⟩
  obtain ⟨below, hbears⟩ := h.reaches hs ((hreach x).mp ((hmem x).mp hx))
  exact hlt hbears

/-! ## Work that plants -/

/-- A token that can be put into a slot. -/
structure LooseToken (s : Store) (id : ObjectId) : Prop where
  loose : s.Loose id
  read : ∃ t, s.elementOf? (.object id) = some (.token id t)

/-- Tokens are loose as long as nothing is made of them. -/
theorem looseToken_addAll {os : List Object} (hs : (s.addAll os).Grounded) {i : Nat} {t : Token}
    (h : os[i]? = some (.token t)) :
    (s.addAll os).LooseToken (s.size + i) ∧ (s.addAll os).token? (s.size + i) = some t := by
  have hcell : (s.addAll os).cell? (s.size + i) = some (.ofObject (.token t)) := by
    rw [cell?_addAll, if_neg (by omega), Nat.add_sub_cancel_left, h]
    rfl
  have hobject : (s.addAll os).object? (s.size + i) = some (.token t) := by rw [object?, hcell]; rfl
  have hbase : (s.addAll os).base? (s.size + i) = some Ground.record.id := by rw [base?, hcell]; rfl
  have hnode : (s.addAll os).isNode (s.size + i) = false := by
    rw [isNode, hs.isA_of_base hbase, hs.isA_ground .node .record]
    rfl
  have htoken : (s.addAll os).token? (s.size + i) = some t := by rw [token?, hobject]
  refine ⟨⟨⟨?_, ?_, ?_⟩, t, ?_⟩, htoken⟩
  · simp [isElement, htoken]
  · simp [isList, Value.object?, hobject, Object.items?]
  · rw [Free, hnode, isOwned, hcell]
    exact ⟨fun h => absurd h Bool.false_ne_true, fun _ => rfl⟩
  · simp [elementOf?, hnode, htoken]

/-- Objects that are not linked by a change stay loose. -/
theorem Loose.grown {c : ObjectId} (h : s.Loose c) (hs : s.Grounded) {q : ObjectId} (hg : s.Grown t q cs) (hc : c ∉ cs) :
    t.Loose c := by
  have hlt : (Value.object c).Within s.size := h.lt_size
  have hnode := hs.isNode_keeps hg.keeps h.lt_size
  refine ⟨?_, ?_, ?_⟩
  · rw [hs.isElement_keeps hg.keeps hlt, h.element]
  · rw [Grounded.isList_keeps hg.keeps hlt, h.single]
  · refine ⟨fun hn => ?_, fun hn => ?_⟩
    · rw [hs.isSourceFile_keeps hg.keeps h.lt_size, hg.parent c, if_neg fun h => hc h.1]
      exact h.free.1 (hnode ▸ hn)
    · rw [hg.owned c, h.free.2 (hnode ▸ hn)]
      simp [hc]

/-- Work that makes objects with an outline of the given tokens and touches no other object. The objects are loose
after it, and each is one of the tokens or new. -/
structure Planted (s t : Store) (ts cs : List ObjectId) (o : Outline) : Prop where
  keeps : s.Keeps t
  grounded : t.Grounded
  closed : t.Closed
  grows : t.Grows cs o
  tokens : o.tokens.map Prod.fst = ts
  loose : ∀ c ∈ cs, t.Loose c
  nodup : cs.Nodup
  origin : ∀ c ∈ cs, c ∈ ts ∨ s.size ≤ c
  frame : ∀ c, s.Loose c → c ∉ ts → t.Loose c
  linked : o.Linked t none
  parents : ∀ c : Nat, c < s.size → t.parent? c = s.parent? c

namespace Planted

variable {ts ts' cs' : List ObjectId} {o o' : Outline}

/-- Tokens are objects with an outline as they are. -/
theorem ofTokens (hs : s.Grounded) (hc : s.Closed) (hts : ∀ id ∈ ts, s.LooseToken id) (hnodup : ts.Nodup) :
    ∃ o, s.Planted s ts ts o := by
  have hgrows : ∃ o, s.Grows ts o ∧ o.tokens.map Prod.fst = ts ∧ o.Linked s none := by
    clear hnodup
    induction ts with
    | nil => exact ⟨.empty, .nil, rfl, trivial⟩
    | cons id ts ih =>
      obtain ⟨o, hgrows, htokens, hlinked⟩ := ih fun id hid => hts id (List.mem_cons_of_mem _ hid)
      obtain ⟨t, hread⟩ := (hts id List.mem_cons_self).read
      exact ⟨.token id t o, .token hread hgrows, congrArg (List.cons id) htokens, hlinked⟩
  obtain ⟨o, hgrows, htokens, hlinked⟩ := hgrows
  exact ⟨o, .refl s, hs, hc, hgrows, htokens, fun c hc => (hts c hc).loose, hnodup, fun _ => .inl, fun _ h _ => h,
    hlinked, fun _ _ => rfl⟩

/-- Tokens that are not used stay loose. -/
theorem looseToken (h : s.Planted t ts cs o) (hs : s.Grounded) (hts' : ∀ id ∈ ts', s.LooseToken id)
    (hdisjoint : ts.Disjoint ts') : ∀ id ∈ ts', t.LooseToken id := by
  intro id hid
  refine ⟨h.frame id (hts' id hid).loose fun hmem => hdisjoint hmem hid, ?_⟩
  obtain ⟨tok, hread⟩ := (hts' id hid).read
  have hlt : (Value.object id).Within s.size := (hts' id hid).loose.lt_size
  exact ⟨tok, by rw [hs.elementOf?_keeps h.keeps hlt, hread]⟩

/-- Pieces of work one after the other make their objects in a row. -/
theorem append (h : s.Planted t ts cs o) (h' : t.Planted u ts' cs' o') (hts' : ∀ id ∈ ts', s.LooseToken id)
    (hdisjoint : ts.Disjoint ts') : s.Planted u (ts ++ ts') (cs ++ cs') (o.append o') := by
  -- What the first piece made is new to the second one, or among tokens that the second one does not use.
  have hunused : ∀ c ∈ cs, c ∉ ts' := by
    intro c hc hmem
    rcases h.origin c hc with htoken | hnew
    · exact hdisjoint htoken hmem
    · exact absurd (hts' c hmem).loose.lt_size (Nat.not_lt_of_le hnew)
  have hapart : ∀ c ∈ cs, c ∉ cs' := by
    intro c hc hc'
    rcases h'.origin c hc' with htoken | hnew
    · exact hunused c hc htoken
    · exact absurd (h.loose c hc).lt_size (Nat.not_lt_of_le hnew)
  refine
    { keeps := h.keeps.trans h'.keeps
      grounded := h'.grounded
      closed := h'.closed
      grows := (h.grows.keeps h.grounded h'.keeps).append h'.grows
      tokens := by rw [Outline.tokens_append, List.map_append, h.tokens, h'.tokens]
      loose := fun c hc => ?_
      nodup := List.nodup_append.mpr ⟨h.nodup, h'.nodup, fun c hc c' hc' heq => hapart c hc (heq ▸ hc')⟩
      origin := fun c hc => ?_
      frame := fun c hloose hc => ?_
      linked := (h.grows.linked_congr h'.parents h.linked).append h'.linked
        fun c hc hc' => hapart c (h.grows.tops_subset hc) (h'.grows.tops_subset hc')
      parents := fun c hc => (h'.parents c (Nat.lt_of_lt_of_le hc h.keeps.size_le)).trans (h.parents c hc) }
  · rcases List.mem_append.mp hc with hc | hc
    · exact h'.frame c (h.loose c hc) (hunused c hc)
    · exact h'.loose c hc
  · rw [List.mem_append]
    rcases List.mem_append.mp hc with hc | hc
    · exact (h.origin c hc).imp_left .inl
    · rcases h'.origin c hc with htoken | hnew
      · exact .inl (.inr htoken)
      · exact .inr (Nat.le_trans h.keeps.size_le hnew)
  · rw [List.mem_append, not_or] at hc
    exact h'.frame c (h.frame c hloose hc.1) hc.2

theorem ne_nil (h : s.Planted t ts cs o) (hts : ts ≠ []) : cs ≠ [] := by
  rintro rfl
  have htokens := h.tokens
  cases h.grows
  exact hts htokens.symm

/-- The new node bears what was planted. -/
theorem bears_of_made (h : s.Planted t ts cs o) (hts : ts ≠ []) {p : Plan} {input : Input} {id : ObjectId} {n : Node}
    {rows : List Row} (hmade : t.Made p input id n rows u) (hrows : rows.flatMap Row.children = cs) : u.Bears id o := by
  subst hrows
  exact ⟨n, rows, hmade.shows, h.ne_nil hts, hmade.grown.below, h.grows.keeps h.grounded hmade.grown.keeps⟩

/-- A node is made of what was planted. -/
theorem node (h : s.Planted t ts cs o) (hts : ts ≠ []) (hv : v.self < s.size) (hfile : v.isSourceFile = false)
    (hfills : Fills slots v.layout cs) : ∃ id u, create v (.ofMembers slots) t = (.ok id, u) ∧
      s.Planted u ts [id] (.node id none o .empty) := by
  have hvt : v.self < t.size := Nat.lt_of_lt_of_le hv h.keeps.size_le
  obtain ⟨id, n, rows, u, hrun, hmade, hnone, hrows⟩ :=
    create_of_fills h.grounded h.closed hvt hfile hfills h.loose h.nodup
  have hg := hmade.grown
  have hunlinked : u.parent? id = none := by
    rw [hg.parent id, if_neg fun hid => absurd (hg.below id hid.1) (Nat.lt_irrefl id), parent?,
      cell?_eq_none hmade.new]
    rfl
  have hnode := hmade.shows.isNode hg.grounded
  have hnew : u.Loose id :=
    { element := by simp [isElement, hnode]
      single := by simp [isList, Value.object?, hmade.shows.object, Object.items?]
      free := by
        refine ⟨fun _ => ⟨?_, hunlinked⟩, fun hn => by rw [hnode] at hn; cases hn⟩
        rw [hmade.shows.isSourceFile hg.grounded, Node.isSourceFile, hnone]
        rfl }
  obtain ⟨n', rows', hshows, hsome, holder, hinside⟩ := h.bears_of_made hts hmade hrows
  refine ⟨id, u, hrun,
    { keeps := h.keeps.trans hg.keeps
      grounded := hg.grounded
      closed := hg.closed
      grows := .node hshows hsome holder hinside .nil
      tokens := ?_
      loose := fun c hc => by rw [List.mem_singleton.mp hc]; exact hnew
      nodup := List.nodup_singleton id
      origin := fun c hc => ?_
      frame := fun c hloose hc => ?_
      linked := ⟨hunlinked, List.not_mem_nil, h.grows.linked_grown h.grounded hg (hrows ▸ List.Subset.refl cs) h.linked,
        trivial⟩
      parents := fun c hc => ?_ }⟩
  · rw [Outline.tokens, Outline.tokens, List.append_nil, h.tokens]
  · rw [List.mem_singleton.mp hc]
    exact .inr (Nat.le_trans h.keeps.size_le hmade.new)
  · refine (h.frame c hloose hc).grown h.grounded hg ?_
    rw [hrows]
    intro hmem
    rcases h.origin c hmem with htoken | hnew
    · exact hc htoken
    · exact absurd hloose.lt_size (Nat.not_lt_of_le hnew)
  · -- Of what was there before, only tokens are linked, and these have no parent.
    rw [hg.parent c, if_neg, h.parents c hc]
    rintro ⟨hmem, hn⟩
    rcases h.origin c (hrows ▸ hmem) with htoken | hnew
    · rw [← h.tokens] at htoken
      obtain ⟨e, he, rfl⟩ := List.mem_map.mp htoken
      obtain ⟨hno, htoken⟩ := h.grows.isNode_token? e he
      rw [h.grounded.isNode_keeps hg.keeps (lt_size_of_token? htoken), hno] at hn
      cases hn
    · exact absurd hc (Nat.not_lt_of_le hnew)

/-- A source file is made of what was planted, and recorded for all nodes below it. -/
theorem file (h : s.Planted t ts cs o) (hts : ts ≠ []) (g : Grammar) (hg : g.sourceFile.self < s.size)
    (source : Source) (slots : Members SlotValue) (hfills : Fills slots g.sourceFile.layout cs) {endOfFile : ObjectId}
    {eof : Token}
    (hslot : (endOfFileSlot, .one (.object endOfFile)) ∈ slots) (heof : t.token? endOfFile = some eof)
    (hkind : eof.kind.same (.ofNat g.endOfFileKind) = true) :
    ∃ id u, createSourceFile g source (.ofMembers slots) t = (.ok id, u) ∧ (s.Keeps u ∧ u.Grounded ∧ u.Closed) ∧
      u.Bears id o ∧ u.isSourceFile id = true ∧ u.source (.object id) = .ok (.text source.text) ∧
      u.Branch id (endOfFile, eof) id o := by
  have hgt : g.sourceFile.self < t.size := Nat.lt_of_lt_of_le hg h.keeps.size_le
  obtain ⟨id, n, rows, u, hrun, hmade, hfile, hrows⟩ :=
    addFile_of_fills h.grounded h.closed hgt source hfills h.loose h.nodup hslot heof hkind
  have hbears := h.bears_of_made hts hmade hrows
  have hground := hmade.grown.grounded
  obtain ⟨nodes, hnodes, hmem, hlt⟩ := hbears.nodesOf hground
  have hkeeps := keeps_recordRoot u id nodes
  have hgrown := hmade.grown.recordRoot id nodes
  have hground' := hgrown.grounded
  have hshows := hmade.shows.keeps hground hkeeps
  have hrecord : recordRoots id u = (.ok (), u.recordRoot id nodes) := by rw [recordRoots_def, hnodes]; rfl
  have hbears' := hbears.keeps hground hkeeps
  have hrecorded : ∀ m, (u.recordRoot id nodes).Reaches id m → (u.recordRoot id nodes).recorded? m = some id := by
    intro m hm
    rw [recorded?_recordRoot u id hlt, if_pos (hmem m (hbears.reaches_keeps hground hkeeps hground' hm))]
  refine ⟨id, u.recordRoot id nodes, ?_, ⟨h.keeps.trans hgrown.keeps, hground', hgrown.closed⟩, hbears', ?_, ?_, ?_⟩
  · rw [createSourceFile_def, Building.bind_ok hrun, Building.bind_ok hrecord]
    rfl
  · rw [hshows.isSourceFile hground', Node.isSourceFile, hfile]
    rfl
  · have hroot := hrecorded id .refl
    have hsource : (u.recordRoot id nodes).lookup id "source" = .text source.text :=
      hshows.lookup_node hground' (by rw [Node.madeWith, hfile]; rfl)
    rw [recorded?] at hroot
    rw [Store.source, root, hroot]
    exact congrArg Except.ok hsource
  · exact
      { grounded := hground'
        outlines := hbears'.outlines hground'
        clean := hbears'.clean
        linked := (h.grows.linked_grown h.grounded hgrown (hrows ▸ List.Subset.refl cs) h.linked)
        shows := fun m hm => by
          obtain ⟨_, n, rows, hshows, _⟩ := hbears'.reaches hground' hm
          exact ⟨n, rows, hshows⟩
        recorded := hrecorded
        lookup := hshows.lookup_node hground' (by rw [Node.madeWith, hfile]; rfl)
        token := by
          rw [h.grounded.token?_keeps hgrown.keeps (lt_size_of_token? heof), heof] }

end Planted

end Store

end LosslessSyntax
