import LosslessSyntax.Proofs.Outline

/-!
# Nodes as they are made

`Store.Shows` says what a node made by the library looks like: the object itself, the record of its slots, and for each
slot, in source order, what stands in it and the children there. It stays true as long as objects are kept
(`Shows.keeps`), since nothing that the record extends changes. From it follow the slots that are listed
(`Shows.contents`), the children (`Shows.childNodes`) and the items of a walk (`Shows.items`).
-/

namespace LosslessSyntax

/-- A slot of a node, what stands in it, and the children there. -/
structure Row where
  slot : Text
  value : Value
  children : List ObjectId

/-- What a slot is said to hold; nothing is `null`. -/
def Row.content (row : Row) : Value := if row.value.isMissing then .null else row.value

namespace Store

variable {s t : Store}

theorem Grounded.ofId?_eq_none (hs : s.Grounded) {id : ObjectId} {o : Object} (ho : s.object? id = some o)
    (hground : ∀ g, o ≠ .ground g) : Ground.ofId? id = none := by
  cases hg : Ground.ofId? id with
  | none => rfl
  | some g =>
    rw [Ground.eq_id_of_ofId? hg, hs.object g] at ho
    exact absurd (Option.some.inj ho).symm (hground g)

/-- A member of its own is what an object shows, if it is no ground. -/
theorem lookup_own {id : ObjectId} {o : Object} {name : Text} {v : Value} (ho : s.object? id = some o)
    (hown : o.own? name = some v) (hid : Ground.ofId? id = none) : s.lookup id name = v := by
  rw [lookup, seek, seekFrom_succ, ho, Option.bind_some, hown]
  simp only [hid]

/-! ## Shapes -/

/-- A node shows its slots: it is as it was made, its record of slots is sealed, and each slot holds what its row says. -/
structure Shows (s : Store) (id : ObjectId) (n : Node) (rows : List Row) : Prop where
  object : s.object? id = some (.node n)
  base : s.base? id = (Object.node n).base?
  plain : n.assigned = []
  slots : rows.map Row.slot = n.variant.slotNames
  record : ∃ m, s.object? n.slots = some (.record m true) ∧
    ∀ row ∈ rows, row.slot = baseName ∨ m.get? row.slot = some row.value
  lookup : ∀ row ∈ rows, s.lookup n.slots row.slot = row.value
  within : ∀ row ∈ rows, row.value.Within s.size
  iterated : ∀ row ∈ rows, s.iterated row.value = .ok (.ofList (row.children.map .object))

/-- The row of a slot as it can be read from a record of slots. -/
def rowAt (s : Store) (slots : ObjectId) (slot : Text) : Row :=
  ⟨slot, s.lookup slots slot,
    ((s.iterated (s.lookup slots slot)).toOption.elim [] Sequence.values).filterMap Value.object?⟩

/-- The entries of a slot that can be gone through are what is met there. -/
theorem slotEntries_of_iterated {content : Value} {cs : List ObjectId}
    (h : s.iterated content = .ok (.ofList (cs.map .object))) :
    (s.slotEntries content).map (·.2) = cs.map .object := by
  rw [Store.iterated] at h
  rw [slotEntries]
  cases hitems : s.items? content with
  | some items =>
    rw [hitems] at h
    simp only at h
    split at h
    · cases h
      have hall : (Sequence.ofList (cs.map .object)).entries.filter (!·.2.isMissing) =
          (Sequence.ofList (cs.map .object)).entries := by
        refine List.filter_eq_self.mpr fun entry he => ?_
        have hmem : entry.2 ∈ (Sequence.ofList (cs.map .object)).values := List.mem_map.mpr ⟨entry, he, rfl⟩
        rw [Sequence.values_ofList] at hmem
        obtain ⟨c, _, hc⟩ := List.mem_map.mp hmem
        rw [← hc]
        rfl
      rw [Option.map_some, Option.getD_some, hall]
      exact Sequence.values_ofList _
    · cases h
  | none =>
    rw [hitems] at h
    have hvalues := congrArg Sequence.values (Except.ok.inj h)
    rw [Sequence.values_ofList, Sequence.values_ofList] at hvalues
    rw [← hvalues, Option.map_none, Option.getD_none]
    cases hm : content.isMissing <;> simp [hm]

namespace Shows

variable {id : ObjectId} {n : Node} {rows : List Row}

theorem lt_size (h : s.Shows id n rows) : id < s.size := lt_size_of_object? h.object

theorem slots_lt (h : s.Shows id n rows) : n.slots < s.size := by
  obtain ⟨m, hm, _⟩ := h.record
  exact lt_size_of_object? hm

theorem keeps (hs : s.Grounded) (hk : s.Keeps t) (h : s.Shows id n rows) : t.Shows id n rows := by
  obtain ⟨m, hm, hown⟩ := h.record
  have hm' : t.object? n.slots = some (.record m true) := by rw [hk.object h.slots_lt, hm]
  have hnone := hs.ofId?_eq_none hm nofun
  refine
    { object := by rw [hk.object h.lt_size, h.object]
      base := by rw [hk.base h.lt_size, h.base]
      plain := h.plain
      slots := h.slots
      record := ⟨m, hm', hown⟩
      lookup := fun row hrow => ?_
      within := fun row hrow => (h.within row hrow).mono hk.size_le
      iterated := fun row hrow => by rw [hs.iterated_keeps hk (h.within row hrow), h.iterated row hrow] }
  by_cases hparent : row.slot = "parent"
  · -- The parent that a node shows can change, but such a slot is a member of the record itself.
    rcases hown row hrow with hbase | hmember
    · rw [hbase] at hparent
      exact absurd hparent (by decide)
    · exact lookup_own hm' (by simpa [Object.own?, Object.hidden, Object.listed, Members.get?] using hmember) hnone
  · rw [hs.lookup_keeps hk h.slots_lt hparent, h.lookup row hrow]

theorem rows_eq (h : s.Shows id n rows) : rows = n.variant.slotNames.map (s.rowAt n.slots) := by
  rw [← h.slots, List.map_map]
  refine (List.map_id rows).symm.trans (List.map_congr_left fun row hrow => ?_)
  simp only [Function.comp_apply, rowAt, h.lookup row hrow, h.iterated row hrow, Except.toOption, Option.elim_some,
    Sequence.values_ofList, List.filterMap_map]
  simp [Value.object?]

/-- A node shows one thing at most. -/
theorem unique (h : s.Shows id n rows) {n' : Node} {rows' : List Row} (h' : s.Shows id n' rows') :
    n = n' ∧ rows = rows' := by
  have hn : n = n' := by
    have := h.object.symm.trans h'.object
    cases this
    rfl
  subst hn
  exact ⟨rfl, h.rows_eq.trans h'.rows_eq.symm⟩

theorem child_lt (hc : s.Closed) (h : s.Shows id n rows) {c : ObjectId} (hmem : c ∈ rows.flatMap Row.children) :
    c < s.size := by
  obtain ⟨row, hrow, hchild⟩ := List.mem_flatMap.mp hmem
  refine hc.iterated (h.within row hrow) (h.iterated row hrow) (.object c) ?_
  rw [Sequence.values_ofList]
  exact List.mem_map.mpr ⟨c, hchild, rfl⟩

theorem isNode (hs : s.Grounded) (h : s.Shows id n rows) : s.isNode id = true := by
  have hbase := h.base
  rw [Object.base?] at hbase
  rw [Store.isNode, hs.isA_of_base hbase]
  cases n.isSourceFile with
  | false => rfl
  | true => simp [hs.isA_ground .node .file, Ground.base?]

theorem isSourceFile (hs : s.Grounded) (h : s.Shows id n rows) : s.isSourceFile id = n.isSourceFile := by
  have hbase := h.base
  rw [Object.base?] at hbase
  rw [Store.isSourceFile, hs.isA_of_base hbase]
  cases n.isSourceFile with
  | true => rfl
  | false =>
    have hrecord : s.isA .file Ground.record.id = false := hs.isA_ground .file .record
    have hnode : s.isA .file Ground.node.id = (Ground.file.id == Ground.record.id || s.isA .file Ground.record.id) :=
      hs.isA_ground .file .node
    rw [if_neg Bool.false_ne_true, hnode, hrecord]
    rfl

/-! ## Reading a node -/

theorem lookup_node (hs : s.Grounded) (h : s.Shows id n rows) {name : Text} {v : Value}
    (hv : n.madeWith.get? name = some v) : s.lookup id name = v := by
  refine lookup_own h.object ?_ (hs.ofId?_eq_none h.object fun g hg => by cases hg)
  rw [Object.own?]
  · simp only [Object.hidden, Object.listed, Node.members, h.plain]
    exact hv
  · intros
    contradiction

theorem lookup_children (hs : s.Grounded) (h : s.Shows id n rows) : s.lookup id "children" = .object n.slots :=
  h.lookup_node hs rfl

theorem token?_eq_none (hs : s.Grounded) (h : s.Shows id n rows) : s.token? id = none := by
  have htag : s.lookup id "tag" = .text "node" := h.lookup_node hs rfl
  rw [token?, h.object]
  simp only [htag]
  exact if_neg (by decide)

theorem madeVariant? (h : s.Shows id n rows) : s.madeVariant? (.object id) = some n.variant := by
  simp only [Store.madeVariant?, Value.object?, Option.bind_some, node?, h.object, Object.node?, h.plain]
  rfl

theorem kindName (h : s.Shows id n rows) : s.kindName (.object id) = .ok (.text n.variant.name) := by
  rw [Store.kindName, h.madeVariant?]

theorem slotNames (h : s.Shows id n rows) : s.slotNames (.object id) = .ok (rows.map Row.slot) := by
  rw [Store.slotNames, h.madeVariant?, h.slots]
  rfl

theorem slotContent (hs : s.Grounded) (h : s.Shows id n rows) {row : Row} (hrow : row ∈ rows) :
    s.slotContent (.object id) row.slot = .ok row.content := by
  rw [Store.slotContent]
  simp only [member, h.lookup_children hs]
  show Except.ok _ = _
  rw [h.lookup row hrow]
  rfl

theorem iterated_content (h : s.Shows id n rows) {row : Row} (hrow : row ∈ rows) :
    s.iterated row.content = .ok (.ofList (row.children.map .object)) := by
  rw [← h.iterated row hrow, Row.content]
  cases hm : row.value.isMissing with
  | false => rfl
  | true => cases hv : row.value <;> rw [hv] at hm <;> first | rfl | cases hm

/-- The slots of a node with what stands in them. -/
theorem contents (hs : s.Grounded) (h : s.Shows id n rows) :
    s.contents (.object id) = .ok (rows.map fun row => (row.slot, row.content)) := by
  rw [Store.contents, h.slotNames]
  show (rows.map Row.slot).mapM _ = _
  rw [List.mapM_map]
  refine Attempt.mapM_ok fun row hrow => ?_
  simp only [Function.comp_apply, h.slotContent hs hrow]
  rfl

theorem childNodes (hs : s.Grounded) (h : s.Shows id n rows) :
    s.childNodes id = .ok ((rows.flatMap Row.children).filter s.isNode) := by
  have hmet : (rows.map fun row => (row.slot, row.content)).mapM
      (fun entry => Attempt.ofMisuse (s.iterated entry.2)) =
        .ok (rows.map fun row => Sequence.ofList (row.children.map .object)) := by
    rw [List.mapM_map]
    refine Attempt.mapM_ok fun row hrow => ?_
    simp only [Function.comp_apply, h.iterated_content hrow]
    rfl
  have hvalues : (rows.map fun row => Sequence.ofList (row.children.map .object)).flatMap Sequence.values =
      (rows.flatMap Row.children).map .object := by
    rw [List.flatMap_map, List.map_flatMap]
    simp only [Sequence.values_ofList]
  rw [Store.childNodes, h.contents hs]
  show ((rows.map fun row => (row.slot, row.content)).mapM (fun entry => Attempt.ofMisuse (s.iterated entry.2)) >>=
    fun met => pure ((met.flatMap Sequence.values |>.filterMap Value.object?).filter s.isNode)) = _
  rw [hmet]
  show Except.ok _ = _
  rw [hvalues, List.filterMap_map]
  simp [Function.comp_def, Value.object?]

/-- The items of a node are its children in order. -/
theorem items (hs : s.Grounded) (h : s.Shows id n rows) :
    s.items (.object id) = .ok (rows.flatMap fun row => row.children.map fun c => .value row.slot (.object c)) := by
  have hslot : ∀ row ∈ rows,
      s.slotItems (.object id) row.slot = row.children.map fun c => .value row.slot (.object c) := by
    intro row hrow
    rw [slotItems_of_content (h.slotContent hs hrow)]
    have := congrArg (List.map (Item.value row.slot)) (slotEntries_of_iterated (h.iterated_content hrow))
    rwa [List.map_map, List.map_map] at this
  rw [Store.items, h.slotNames]
  show Except.ok _ = _
  rw [List.flatMap_map]
  exact congrArg Except.ok (List.flatMap_congr hslot)

/-- The nodes that a walk enters from a node are its children that are nodes. -/
theorem childNode (hs : s.Grounded) (h : s.Shows id n rows) {c : ObjectId} :
    s.ChildNode id c ↔ c ∈ rows.flatMap Row.children ∧ s.isNode c = true := by
  have hitem : ∀ {slot value}, Item.value slot value ∈
      (rows.flatMap fun row => row.children.map fun c => Item.value row.slot (.object c)) ↔
        ∃ row ∈ rows, row.slot = slot ∧ ∃ c ∈ row.children, value = .object c := by
    intro slot value
    simp only [List.mem_flatMap, List.mem_map, Item.value.injEq]
    grind
  rw [List.mem_flatMap]
  constructor
  · rintro ⟨items, slot, value, t, hitems, hmem, he⟩
    rw [h.items hs] at hitems
    cases hitems
    obtain ⟨row, hrow, _, c', hc', rfl⟩ := hitem.mp hmem
    obtain ⟨heq, hn, _⟩ := isNode_of_elementOf? he
    cases heq
    exact ⟨⟨row, hrow, hc'⟩, hn⟩
  · rintro ⟨⟨row, hrow, hc⟩, hn⟩
    refine ⟨_, row.slot, .object c, s.token? c, h.items hs, hitem.mpr ⟨row, hrow, rfl, c, hc, rfl⟩, ?_⟩
    simp [elementOf?, hn]

end Shows

end Store

end LosslessSyntax
