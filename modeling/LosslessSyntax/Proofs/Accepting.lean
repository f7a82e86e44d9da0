import LosslessSyntax.Proofs.Growing
import LosslessSyntax.Proofs.Refusals

/-!
# What a call accepts

Which children `create` and `createSourceFile` accept, and what the new node holds (`run_decided`), for variants without
a slot with the name of the base.

* What is given for a slot passes its check if and only if it suits the slot, and it is kept in the form that the slot
  asks for (`checkSlot_eq_ok_iff`).
* Children can be attached if and only if all of them are distinct and free (`Filling.attachable_iff`).
* A refusal is a fault of the tree, unless a list cannot be gone through or a child that is attached already does not
  show its kind (`checkSlot_malformed`, `Filling.attachable_malformed`).

A node that is a list besides does not suit a slot for a single child.
-/

namespace LosslessSyntax

/-- A failure by a malformed tree. -/
def Failure.IsMalformed (f : Failure) : Prop := ∃ cause kind, f = .ofTree (.malformed cause kind)

namespace Store

variable {s t : Store} {p : Plan} {input : Input} {kind arity : Value} {slot : Text} {given checked : SlotValue}
  {failure : Failure}

theorem refuse_malformed {α : Type} {cause : Malformation} (h : (refuse cause kind : Attempt α) = .error failure) :
    failure.IsMalformed := ⟨cause, kind, (Except.error.inj h).symm⟩

/-! ## What suits a slot -/

/-- Nothing, or a list that can be gone through, of nodes and tokens. -/
def IsMany (s : Store) : SlotValue → Prop
  | .many vs => ∀ v ∈ vs, s.isElement v = true
  | .one v => v.isMissing = true ∨ ∃ items, s.items? v = some items ∧ s.isIterable v = true ∧ items.isFull = true ∧
    ∀ w ∈ items.values, s.isElement w = true

/-- Nothing, or a node or token that is no list. -/
def IsSingle (s : Store) : SlotValue → Prop
  | .many _ => False
  | .one v => v.isMissing = true ∨ s.isList v = false ∧ s.isElement v = true

/-- What is given can stand in a slot. -/
def Suits (s : Store) (arity : Value) (given : SlotValue) : Prop :=
  if arity = Layout.many then s.IsMany given else s.IsSingle given

/-- What is given for a slot in the form in which it is kept: a row for a slot that holds a list, where nothing is the
empty row; for any other slot nothing is `null`. -/
def settle (s : Store) (arity : Value) (given : SlotValue) : SlotValue :=
  if arity = Layout.many then
    match given with
    | .many vs => .many vs
    | .one v => .many ((s.items? v).elim [] Sequence.values)
  else given.settled

theorem settle_single (h : arity ≠ Layout.many) : s.settle arity given = given.settled := if_neg h

theorem checkEntries_eq_ok {vs : List Value} :
    s.checkEntries kind slot vs = .ok checked ↔ (∀ v ∈ vs, s.isElement v = true) ∧ checked = .many vs := by
  rw [checkEntries, ← List.all_eq_true]
  split
  · rename_i hall
    rw [hall, Attempt.pure_eq_ok, Except.ok.injEq, eq_comm]
    simp
  · rename_i hall
    exact iff_of_false (fun h => by cases h) fun h => hall h.1

theorem items?_of_isMissing {v : Value} (h : v.isMissing = true) : s.items? v = none := by
  cases v <;> first | rfl | cases h

theorem checkMany_eq_ok :
    s.checkMany kind slot given = .ok checked ↔ s.IsMany given ∧ checked = s.settle Layout.many given := by
  cases given with
  | many vs =>
    rw [settle, if_pos rfl]
    exact checkEntries_eq_ok
  | one v =>
    rw [checkMany, IsMany, settle, if_pos rfl]
    cases hitems : s.items? v with
    | none =>
      simp only [Option.elim_none, reduceCtorEq, false_and, exists_false, or_false]
      split
      · rename_i hmissing
        rw [hmissing, Attempt.pure_eq_ok, Except.ok.injEq, eq_comm]
        simp
      · rename_i hmissing
        exact iff_of_false (fun h => by cases h) fun h => hmissing h.1
    | some items =>
      have hmissing : v.isMissing = false := Bool.eq_false_iff.mpr fun h => by
        rw [items?_of_isMissing h] at hitems
        cases hitems
      rw [hmissing]
      simp only [Bool.false_eq_true, false_or, Option.some.injEq, exists_eq_left', Option.elim_some]
      cases s.isIterable v with
      | false => exact iff_of_false (fun h => by cases h) fun h => Bool.false_ne_true h.1.1
      | true =>
        cases items.isFull with
        | false => exact iff_of_false (fun h => by cases h) fun h => Bool.false_ne_true h.1.2.1
        | true => simpa using checkEntries_eq_ok

theorem checkOne_eq_ok (harity : arity ≠ Layout.many) :
    s.checkOne kind slot given = .ok checked ↔ s.IsSingle given ∧ checked = s.settle arity given := by
  cases given with
  | many vs => exact iff_of_false (fun h => by cases h) fun h => h.1
  | one v =>
    rw [checkOne, IsSingle, settle_single harity, SlotValue.settled]
    cases v.isMissing with
    | true => exact ⟨fun h => ⟨.inl rfl, (Except.ok.inj h).symm⟩, fun h => by rw [h.2]; rfl⟩
    | false =>
      cases s.isList v with
      | true => exact iff_of_false (fun h => by cases h) fun h => by simp at h
      | false =>
        cases s.isElement v with
        | true => exact ⟨fun h => ⟨.inr ⟨rfl, rfl⟩, (Except.ok.inj h).symm⟩, fun h => by rw [h.2]; rfl⟩
        | false => exact iff_of_false (fun h => by cases h) fun h => by simp at h

/-- What is given passes the check of a slot if and only if it suits the slot. -/
theorem checkSlot_eq_ok_iff :
    s.checkSlot kind slot arity given = .ok checked ↔ s.Suits arity given ∧ checked = s.settle arity given := by
  rw [checkSlot, Suits]
  split
  · rename_i harity
    rw [harity]
    exact checkMany_eq_ok
  · rename_i harity
    exact checkOne_eq_ok harity

/-- A list that is given for a slot that holds a list can be gone through. -/
def Passable (s : Store) (arity : Value) (given : SlotValue) : Prop :=
  arity = Layout.many → ∀ v, given = .one v → s.isList v = true → s.isIterable v = true

theorem isList_eq_isSome_items? (v : Value) : s.isList v = (s.items? v).isSome := by
  cases v with
  | object id =>
    rw [isList, items?, Value.object?, Option.bind_some, object?]
    cases s.cell? id with
    | none => rfl
    | some c =>
      simp only [Option.map_some, Option.bind_some]
      split
      · rfl
      · rw [Option.isSome_map]
  | _ => rfl

/-- What does not pass the check of a slot is refused for a malformed tree, if it can be looked at. -/
theorem checkSlot_malformed (h : s.checkSlot kind slot arity given = .error failure) (hpass : s.Passable arity given) :
    failure.IsMalformed := by
  have hentries : ∀ {vs}, s.checkEntries kind slot vs = .error failure → failure.IsMalformed := by
    intro vs h
    rw [checkEntries] at h
    split at h
    · cases h
    · exact refuse_malformed h
  rw [checkSlot] at h
  split at h
  · rename_i harity
    cases given with
    | many vs => exact hentries h
    | one v =>
      rw [checkMany] at h
      cases hitems : s.items? v with
      | none =>
        rw [hitems] at h
        dsimp only at h
        split at h
        · cases h
        · exact refuse_malformed h
      | some items =>
        have hiterable : s.isIterable v = true := hpass harity v rfl (by rw [isList_eq_isSome_items?, hitems]; rfl)
        rw [hitems] at h
        simp only [hiterable, Bool.not_true, Bool.false_eq_true, if_false] at h
        split at h
        · exact hentries h
        · exact refuse_malformed h
  · cases given with
    | many vs => exact refuse_malformed h
    | one v =>
      rw [checkOne] at h
      split at h
      · cases h
      · split at h
        · exact refuse_malformed h
        · split at h
          · cases h
          · exact refuse_malformed h

/-! ## Children that can be attached -/

/-- The children that are given for the slots of a layout. -/
def offers (s : Store) (layout : Layout) (input : Input) : List Value :=
  layout.flatMap fun entry => (s.settle entry.2 (input.read entry.1)).children

theorem Grounded.kindName_keeps (hs : s.Grounded) (hc : s.Closed) (hk : s.Keeps t) {id : ObjectId} (hid : id < s.size) :
    t.kindName (.object id) = s.kindName (.object id) := by
  have hmade : t.madeVariant? (.object id) = s.madeVariant? (.object id) := by
    simp only [madeVariant?, Value.object?, Option.bind_some, node?, hk.object hid]
  have hvariant : (s.lookup id "variant").Within s.size := hc.lookup hs id (by decide)
  rw [kindName, kindName, hmade]
  cases s.madeVariant? (.object id) with
  | some w => rfl
  | none =>
    show t.member "name" (t.lookup id "variant") = s.member "name" (s.lookup id "variant")
    rw [hs.lookup_keeps hk hid (by decide)]
    cases hv : s.lookup id "variant" with
    | object v => exact congrArg Except.ok (hs.lookup_keeps hk (show v < s.size by rwa [hv] at hvariant) (by decide))
    | _ => rfl

/-- What is met in the slots of a record is determined by their names. -/
theorem Met.eq_map {slots : ObjectId} {met : List (Text × Sequence)} (h : s.Met slots met) :
    met = (met.map Prod.fst).map fun slot => (slot, (s.iterated (s.lookup slots slot)).toOption.getD .empty) := by
  rw [List.map_map]
  refine (List.map_id met).symm.trans (List.map_congr_left fun entry hentry => ?_)
  simp only [Function.comp_apply, h entry hentry]
  rfl

section Full

variable {m : Members Value} {base : Option ObjectId}

/-- A slot of a full record has what was given for it, in the form in which it is kept. -/
theorem Filling.holds (hs : s.Grounded) (h : Filling s p input p.layout.names m base true t)
    (hplain : p.layout.has baseName = false) (hnames : p.layout.names.Nodup) (hmem : (slot, arity) ∈ p.layout) :
    s.checkSlot p.kind slot arity (input.read slot) = .ok (s.settle arity (input.read slot)) ∧
      t.iterated (t.lookup s.size slot) = .ok (.ofList (s.settle arity (input.read slot)).children) ∧
      t.Stands (s.settle arity (input.read slot)) (t.lookup s.size slot) := by
  have hslot : slot ∈ p.layout.names := List.mem_map.mpr ⟨_, hmem, rfl⟩
  have hhas := (h.complete slot hslot).resolve_left (Members.ne_of_has hplain hslot)
  obtain ⟨v, hv⟩ := Members.exists_get? hhas
  obtain ⟨arity', checked, hmem', hcheck, hiterated, hstands⟩ := h.iterated_own hs hv
  obtain rfl : arity' = arity := congrArg Prod.snd (List.inj_on_of_nodup_map hnames hmem' hmem rfl)
  obtain ⟨_, rfl⟩ := checkSlot_eq_ok_iff.mp hcheck
  rw [h.lookup_own hs hv]
  exact ⟨hcheck, hiterated, hstands⟩

theorem Filling.offered (hs : s.Grounded) (h : Filling s p input p.layout.names m base true t)
    (hplain : p.layout.has baseName = false) (hnames : p.layout.names.Nodup) {child : Value}
    (hchild : child ∈ s.offers p.layout input) : ∃ id, child = .object id ∧ id < s.size := by
  obtain ⟨entry, hentry, hmem⟩ := List.mem_flatMap.mp hchild
  exact isElement_object (isElement_of_checkSlot (h.holds hs hplain hnames hentry).1 child hmem)

/-- The children that are given can be attached if and only if all of them are distinct and free. -/
theorem Filling.attachable_iff (hs : s.Grounded) (h : Filling s p input p.layout.names m base true t)
    (hplain : p.layout.has baseName = false) (hnames : p.layout.names.Nodup) {children : List Value} :
    t.attachable p s.size = .ok children ↔ children = s.offers p.layout input ∧ (s.offers p.layout input).Nodup ∧
      ∀ id, .object id ∈ s.offers p.layout input → s.Free id := by
  let met := p.layout.map fun entry => (entry.1, Sequence.ofList (s.settle entry.2 (input.read entry.1)).children)
  have hmap : met.map Prod.fst = p.layout.names := by
    rw [List.map_map]
    rfl
  have hmet : t.Met s.size met := by
    intro entry hentry
    obtain ⟨entry, hmem, rfl⟩ := List.mem_map.mp hentry
    exact (h.holds hs hplain hnames hmem).2.1
  have hvisited : met.flatMap (·.2.visited 2) = s.offers p.layout input := by
    rw [List.flatMap_map]
    exact List.flatMap_congr fun entry _ => Sequence.visited_ofList ..
  have hfree : ∀ {child}, child ∈ s.offers p.layout input → ∀ slot,
      (t.checkChild p.kind slot child = .ok () ↔ ∀ id, child = .object id → s.Free id) := by
    intro child hchild slot
    obtain ⟨id, rfl, hid⟩ := h.offered hs hplain hnames hchild
    rw [checkChild_object p.kind slot (Nat.lt_of_lt_of_le hid h.old.size_le), h.old.free_iff hs hid]
    simp
  rw [attachable_eq_ok]
  constructor
  · rintro ⟨met', hmap', hmet', rfl, hnodup, hchecks⟩
    obtain rfl : met' = met := by rw [hmet'.eq_map, hmet.eq_map, hmap', hmap]
    rw [hvisited] at hnodup
    refine ⟨hvisited, hnodup, fun id hid => ?_⟩
    obtain ⟨entry, hentry, hmem⟩ := List.mem_flatMap.mp (hvisited.symm ▸ hid)
    exact (hfree hid entry.1).mp (hchecks entry hentry _ hmem) id rfl
  · rintro ⟨rfl, hnodup, hall⟩
    refine ⟨met, hmap, hmet, hvisited.symm, hnodup, fun entry hentry child hchild => ?_⟩
    have hmem : child ∈ s.offers p.layout input := hvisited ▸ List.mem_flatMap.mpr ⟨entry, hentry, hchild⟩
    exact (hfree hmem entry.1).mpr fun id hid => hall id (hid ▸ hmem)

/-- Children that are attached already show their kind. -/
def Recognizable (s : Store) (children : List Value) : Prop :=
  ∀ id, .object id ∈ children → s.isNode id = true → (s.parent? id).isSome = true →
    ∃ kind, s.kindName (.object id) = .ok kind

theorem checkChild_malformed {child : Value} (h : s.checkChild kind slot child = .error failure)
    (hkind : s.Recognizable [child]) : failure.IsMalformed := by
  unfold checkChild at h
  split at h
  · rename_i c id hcell
    rw [Value.object?, Option.bind_some] at hcell
    split at h
    · rename_i hnode
      split at h
      · exact refuse_malformed h
      · split at h
        · rename_i hparent
          obtain ⟨name, hname⟩ := hkind id (List.mem_singleton_self _) hnode (by rw [parent?, hcell]; exact hparent)
          rw [malformed, hname] at h
          exact ⟨_, _, (Except.error.inj h).symm⟩
        · cases h
    · split at h
      · exact refuse_malformed h
      · cases h
  · cases h

theorem checkSlotChildren_malformed {seen children : List Value}
    (h : s.checkSlotChildren kind slot seen children = .error failure) (hkind : s.Recognizable children) :
    failure.IsMalformed := by
  induction children generalizing seen with
  | nil => cases h
  | cons child rest ih =>
    rw [checkSlotChildren] at h
    split at h
    · exact refuse_malformed h
    · cases hchild : s.checkChild kind slot child with
      | error f =>
        rw [hchild] at h
        cases h
        exact checkChild_malformed hchild fun id hid => hkind id (List.mem_singleton.mp hid ▸ List.mem_cons_self)
      | ok u =>
        rw [hchild] at h
        exact ih h fun id hid => hkind id (List.mem_cons_of_mem _ hid)

/-- Children that cannot be attached are refused for a malformed tree. -/
theorem Filling.attachable_malformed (hs : s.Grounded) (hc : s.Closed)
    (h : Filling s p input p.layout.names m base true t) (hplain : p.layout.has baseName = false)
    (hnames : p.layout.names.Nodup) (hfails : t.attachable p s.size = .error failure)
    (hkind : s.Recognizable (s.offers p.layout input)) : failure.IsMalformed := by
  rw [attachable] at hfails
  cases hfold : (p.layout.names.foldlM (fun seen slot => do
      let children ← Attempt.ofMisuse (t.iterated (t.lookup s.size slot))
      t.checkSlotChildren p.kind slot seen (children.visited 2)) [] : Attempt (List Value)) with
  | ok seen =>
    rw [hfold] at hfails
    cases hfails
  | error f =>
    rw [hfold] at hfails
    cases hfails
    obtain ⟨slot, hslot, seen, hcheck⟩ := Attempt.foldlM_eq_error hfold
    obtain ⟨⟨slot, arity⟩, hmem, rfl⟩ := List.mem_map.mp hslot
    rw [(h.holds hs hplain hnames hmem).2.1] at hcheck
    refine checkSlotChildren_malformed hcheck fun id hid hnode hparent => ?_
    rw [Sequence.visited_ofList] at hid
    have hoffer : .object id ∈ s.offers p.layout input := List.mem_flatMap.mpr ⟨_, hmem, hid⟩
    obtain ⟨_, heq, hlt⟩ := h.offered hs hplain hnames hoffer
    cases heq
    rw [hs.isNode_keeps h.old.keeps hlt] at hnode
    rw [parent?, h.old.cell hlt] at hparent
    rw [hs.kindName_keeps hc h.old.keeps hlt]
    exact hkind id hoffer hnode hparent

end Full

/-! ## Nodes of what is given -/

/-- What is given for the slots of a layout is accepted: the names are declared, each value suits its slot, and the
children are distinct and free. -/
structure Accepts (s : Store) (layout : Layout) (input : Input) : Prop where
  declared : ∀ name ∈ input.names, (layout.arity? name).isSome = true
  suits : ∀ entry ∈ layout, s.Suits entry.2 (input.read entry.1)
  distinct : (s.offers layout input).Nodup
  free : ∀ id, .object id ∈ s.offers layout input → s.Free id

/-- A new node has what was given: its slots are those of the layout in order, each with what was given for it, and the
children have become its own, but nothing else has. -/
structure Receives (s : Store) (layout : Layout) (input : Input) (id : ObjectId) (t : Store) : Prop where
  contents : ∃ slots, t.contents (.object id) = .ok slots ∧ List.Forall₂ (fun entry content =>
    content.1 = entry.1 ∧ t.Stands (s.settle entry.2 (input.read entry.1)) content.2) layout slots
  parent : ∀ x : Nat, t.parent? x =
    if .object x ∈ s.offers layout input ∧ s.isNode x = true then some id else s.parent? x
  owned : ∀ x : Nat, t.isOwned x = (s.isOwned x || (decide (.object x ∈ s.offers layout input) && !s.isNode x))

/-- Where a single value is kept that is missing, it is `null`. -/
theorem Stands.content {v : Value} (h : t.Stands (s.settle arity given) v) :
    t.Stands (s.settle arity given) (if v.isMissing then .null else v) := by
  split
  · rename_i hmissing
    cases hsettle : s.settle arity given with
    | many ws =>
      rw [hsettle] at h
      obtain ⟨id, rfl, _⟩ := h
      cases hmissing
    | one w =>
      rw [hsettle] at h
      obtain rfl : v = w := h
      unfold settle at hsettle
      split at hsettle
      · cases given <;> cases hsettle
      · cases given with
        | many vs => cases hsettle
        | one u =>
          rw [SlotValue.settled] at hsettle
          cases hu : u.isMissing with
          | true =>
            rw [hu] at hsettle
            cases hsettle
            rfl
          | false =>
            rw [hu, if_neg Bool.false_ne_true] at hsettle
            cases hsettle
            rw [hu] at hmissing
            cases hmissing
  · exact h

section Made

variable {id : ObjectId} {n : Node} {rows : List Row}

/-- The rows of a new node are those of its layout. -/
theorem Made.pairs (h : s.Made p input id n rows t) (hplain : p.layout.has baseName = false)
    (hnames : p.layout.names.Nodup) (hlayout : n.variant.slotNames = p.layout.names) :
    List.Forall₂ (fun entry row => row.slot = entry.1 ∧
      s.checkSlot p.kind entry.1 entry.2 (input.read entry.1) = .ok (s.settle entry.2 (input.read entry.1)) ∧
      row.children.map .object = (s.settle entry.2 (input.read entry.1)).children ∧
      t.Stands (s.settle entry.2 (input.read entry.1)) row.value) p.layout rows := by
  have hslots : rows.map Row.slot = p.layout.names := h.shows.slots.trans hlayout
  have hpairs : List.Forall₂ (fun entry row => row.slot = entry.1) p.layout rows := by
    have heq : List.Forall₂ Eq (p.layout.map Prod.fst) (rows.map Row.slot) := by
      rw [List.forall₂_eq_eq_eq]
      exact hslots.symm
    rw [List.forall₂_map_left_iff, List.forall₂_map_right_iff] at heq
    exact heq.imp fun _ _ => Eq.symm
  rw [List.forall₂_iff_zip] at hpairs ⊢
  refine ⟨hpairs.1, fun {entry row} hmem => ?_⟩
  have hslot := hpairs.2 hmem
  obtain ⟨hentry, hrow⟩ := List.of_mem_zip hmem
  have hne : row.slot ≠ baseName := by
    rw [hslot]
    exact Members.ne_of_has hplain (List.mem_map.mpr ⟨entry, hentry, rfl⟩)
  obtain ⟨arity, checked, hmem', hcheck, hchildren, hstands⟩ := h.given row hrow hne
  rw [hslot] at hmem' hcheck
  obtain rfl : arity = entry.2 := congrArg Prod.snd (List.inj_on_of_nodup_map hnames hmem' hentry rfl)
  obtain ⟨_, rfl⟩ := checkSlot_eq_ok_iff.mp hcheck
  exact ⟨hslot, hcheck, hchildren, hstands⟩

/-- The children of a new node are those that were given. -/
theorem Made.offers_eq (h : s.Made p input id n rows t) (hplain : p.layout.has baseName = false)
    (hnames : p.layout.names.Nodup) (hlayout : n.variant.slotNames = p.layout.names) :
    s.offers p.layout input = (rows.flatMap Row.children).map .object := by
  have hrows := h.pairs hplain hnames hlayout
  rw [offers, List.map_flatMap]
  generalize p.layout = layout at hrows
  clear hplain hnames hlayout h
  induction hrows with
  | nil => rfl
  | cons hrow _ ih => rw [List.flatMap_cons, List.flatMap_cons, ih, hrow.2.2.1]

/-- A new node has what was given, also in a store where more is recorded. -/
theorem Made.receives (h : s.Made p input id n rows t) (hs : s.Grounded) (hplain : p.layout.has baseName = false)
    (hnames : p.layout.names.Nodup) (hlayout : n.variant.slotNames = p.layout.names) {u : Store} (hk : t.Keeps u)
    (hparent : ∀ x : Nat, u.parent? x = t.parent? x) (howned : ∀ x : Nat, u.isOwned x = t.isOwned x)
    (hu : u.Grounded) : s.Receives p.layout input id u := by
  have hoffers := h.offers_eq hplain hnames hlayout
  have hmem : ∀ x : Nat, Value.object x ∈ s.offers p.layout input ↔ x ∈ rows.flatMap Row.children := by
    intro x
    rw [hoffers]
    simp
  have hnode : ∀ x ∈ rows.flatMap Row.children, t.isNode x = s.isNode x := fun x hx =>
    hs.isNode_keeps h.grown.keeps (by
      obtain ⟨_, heq, hlt⟩ := isElement_object (h.elements (Input.unshadowed_of_plain hplain input) x hx)
      cases heq
      exact hlt)
  refine ⟨⟨_, (h.shows.keeps h.grown.grounded hk).contents hu, ?_⟩, fun x => ?_, fun x => ?_⟩
  · have hpairs := h.pairs hplain hnames hlayout
    rw [List.forall₂_map_right_iff, List.forall₂_iff_zip]
    rw [List.forall₂_iff_zip] at hpairs
    refine ⟨hpairs.1, fun {entry row} hmem => ?_⟩
    obtain ⟨hslot, _, _, hstands⟩ := hpairs.2 hmem
    exact ⟨hslot, (hstands.keeps hk (h.shows.within row (List.of_mem_zip hmem).2)).content⟩
  · rw [hparent, h.grown.parent]
    refine if_congr ?_ rfl rfl
    rw [hmem]
    exact and_congr_right fun hx => by rw [hnode x hx]
  · rw [howned, h.grown.owned]
    by_cases hx : x ∈ rows.flatMap Row.children
    · rw [hnode x hx, decide_eq_true hx, decide_eq_true ((hmem x).mpr hx)]
    · rw [decide_eq_false hx, decide_eq_false fun h => hx ((hmem x).mp h)]
      rfl

end Made

/-! ## Work on a node -/

section FillNode

variable {v : Variant} {choose : ObjectId → Store → Attempt Node}

theorem unknownSlot?_plan :
    unknownSlot? v.plan input = none ↔ ∀ name ∈ input.names, (v.layout.arity? name).isSome = true := by
  rw [unknownSlot?, List.find?_eq_none]
  simp [Variant.plan, Option.isSome_iff_ne_none]

theorem fillNode_unknown {name : Text} (h : unknownSlot? p input = some name) :
    (fillNode p input choose).forgetting s = (.error (.ofTree (.malformed (.unknownSlot name) p.kind)), s) := by
  have hmake : makeSlots p input s = (.error (.ofTree (.malformed (.unknownSlot name) p.kind)), s) := by
    rw [makeSlots_def, h]
    rfl
  have hrun : fillNode p input choose s = (.error (.ofTree (.malformed (.unknownSlot name) p.kind)), s) :=
    Building.bind_error hmake
  obtain ⟨u, hforget, _, hsame⟩ := forgetting_error hrun
  rw [hforget, hsame (.refl s)]

/-- Nothing speaks against a node of what is accepted. -/
theorem Accepts.not_refused (h : s.Accepts v.layout input) (hs : s.Grounded) (hplain : v.layout.has baseName = false)
    (hnames : v.layout.names.Nodup)
    (hchoose : ∀ {m base t}, Filling s v.plan input v.layout.names m base true t → ∃ n, choose s.size t = .ok n) :
    ¬ s.Refused v.plan input choose failure := by
  rintro (hunknown | ⟨entry, hentry, hcheck⟩ | ⟨m, base, t, hfill, hfails | hfails⟩)
  · rw [unknownSlot?_plan.mpr h.declared] at hunknown
    cases hunknown
  · rw [checkSlot_eq_ok_iff.mpr ⟨h.suits entry hentry, rfl⟩] at hcheck
    cases hcheck
  · obtain ⟨n, hn⟩ := hchoose hfill
    rw [hn] at hfails
    cases hfails
  · rw [(hfill.attachable_iff hs hplain hnames).mpr ⟨rfl, h.distinct, h.free⟩] at hfails
    cases hfails

/-- A node that was made shows that what was given is accepted. -/
theorem Made.accepts {id : ObjectId} {n : Node} {rows : List Row} (h : s.Made v.plan input id n rows t)
    (hs : s.Grounded) (hplain : v.layout.has baseName = false) (hnames : v.layout.names.Nodup)
    (hlayout : n.variant.slotNames = v.layout.names) (hknown : unknownSlot? v.plan input = none) :
    s.Accepts v.layout input := by
  have hoffers := h.offers_eq hplain hnames hlayout
  refine ⟨unknownSlot?_plan.mp hknown, fun entry hentry => ?_, ?_, fun x hx => ?_⟩
  · have hpairs := h.pairs hplain hnames hlayout
    obtain ⟨i, hi, rfl⟩ := List.getElem_of_mem hentry
    have hi' : i < rows.length := hpairs.length_eq ▸ hi
    exact (checkSlot_eq_ok_iff.mp (hpairs.get hi hi').2.1).1
  · rw [show v.layout = v.plan.layout from rfl, hoffers]
    exact h.nodup.map fun _ _ heq => Value.object.inj heq
  · rw [show v.layout = v.plan.layout from rfl, hoffers] at hx
    obtain ⟨c, hc, heq⟩ := List.mem_map.mp hx
    cases heq
    have hlt : x < s.size := by
      obtain ⟨_, heq, hlt⟩ := isElement_object (h.elements (Input.unshadowed_of_plain hplain input) x hc)
      cases heq
      exact hlt
    have hnode := hs.isNode_keeps h.grown.keeps hlt
    refine ⟨fun hn => ?_, fun hn => h.grown.others x hc (hnode.trans hn)⟩
    rw [← hs.isSourceFile_keeps h.grown.keeps hlt]
    exact h.grown.nodes x hc (hnode.trans hn)

/-- Work that fails before anything is recorded is refused for a malformed tree, if what is given can be looked at. -/
theorem Fails.malformed (hs : s.Grounded) (hc : s.Closed) (hplain : v.layout.has baseName = false)
    (hnames : v.layout.names.Nodup) (hrun : (fillNode v.plan input choose).forgetting s = (.error failure, t))
    (h : s.Fails v.plan input choose failure t)
    (hchoose : ∀ {u f}, choose s.size u = .error f → f.IsMalformed)
    (hpass : ∀ entry ∈ v.layout, s.Passable entry.2 (input.read entry.1))
    (hkind : s.Recognizable (s.offers v.layout input)) : failure.IsMalformed := by
  rcases h.refused hplain with hunknown | ⟨entry, hentry, hcheck⟩ | ⟨m, base, t, hfill, hfails | hfails⟩
  · obtain ⟨name, hname⟩ := Option.isSome_iff_exists.mp hunknown
    cases hrun.symm.trans (fillNode_unknown hname)
    exact ⟨_, _, rfl⟩
  · exact checkSlot_malformed hcheck (hpass entry hentry)
  · exact hchoose hfails
  · exact hfill.attachable_malformed hs hc hplain hnames hfails hkind

/-- A node can be made if and only if what is given is accepted and the node can be chosen. -/
theorem fillNode_ok_iff (hs : s.Grounded) (hc : s.Closed) (hinput : ∀ slot, (input.read slot).Within s.size)
    (hplain : v.layout.has baseName = false) (hnames : v.layout.names.Nodup)
    (hfits : ∀ {t n}, choose s.size t = .ok n → s.Fits v.plan n t) {chosen : Prop}
    (hchosen : ∀ {m base t}, Filling s v.plan input v.layout.names m base true t →
      ((∃ n, choose s.size t = .ok n) ↔ chosen)) :
    (∃ id t, (fillNode v.plan input choose).forgetting s = (.ok id, t)) ↔ s.Accepts v.layout input ∧ chosen := by
  rcases fillNode_spec hs hc hinput (Input.harmless_of_plain hplain input) fun _ => hfits with
    ⟨id, n, rows, u, hrun, hmade, m, base, t, hfill, hn, _⟩ | ⟨failure, u, hrun, hfails⟩
  · have hknown : unknownSlot? v.plan input = none := by
      cases hunknown : unknownSlot? v.plan input with
      | none => rfl
      | some name =>
        rw [fillNode_unknown hunknown] at hrun
        cases hrun
    exact iff_of_true ⟨id, u, hrun⟩
      ⟨hmade.accepts hs hplain hnames (hfits hn).layout hknown, (hchosen hfill).mp ⟨n, hn⟩⟩
  · refine iff_of_false (fun ⟨id, t, h⟩ => by cases hrun.symm.trans h) fun ⟨haccepts, hyes⟩ => ?_
    exact haccepts.not_refused hs hplain hnames (fun hfill => (hchosen hfill).mpr hyes) (hfails.refused hplain)

/-- What a source file ends with: a token of the kind is given for the slot for it. -/
def EndsFile (s : Store) (kind : Value) (input : Input) : Prop :=
  ∃ id tok, input.read endOfFileSlot = .one (.object id) ∧ s.token? id = some tok ∧ tok.kind.same kind = true

theorem exists_fileNode_iff {source : Source} {slots : ObjectId} :
    (∃ n, fileNode v kind source slots t = .ok n) ↔ ∃ id, t.endOfFileToken? kind slots = some id := by
  rw [fileNode]
  cases t.endOfFileToken? kind slots with
  | none => simp [refuse_eq_error]
  | some id => simp

theorem fileNode_ok_iff (hs : s.Grounded) {m : Members Value} {base : Option ObjectId}
    (h : Filling s v.plan input v.layout.names m base true t) (hplain : v.layout.has baseName = false)
    (hnames : v.layout.names.Nodup) (hslot : (endOfFileSlot, Layout.one) ∈ v.layout) (source : Source) :
    (∃ n, fileNode v kind source s.size t = .ok n) ↔ s.EndsFile kind input := by
  obtain ⟨hcheck, _, hstands⟩ := h.holds hs hplain hnames hslot
  have hne : Layout.one ≠ Layout.many := by decide
  have hsingle := (checkSlot_eq_ok_iff.mp hcheck).1
  rw [Suits, if_neg hne] at hsingle
  rw [settle_single hne] at hstands
  rw [exists_fileNode_iff, EndsFile]
  simp only [endOfFileToken?_eq_some]
  cases hread : input.read endOfFileSlot with
  | many vs =>
    rw [hread] at hsingle
    exact hsingle.elim
  | one w =>
    rw [hread] at hsingle hstands
    have hlookup : t.lookup s.size endOfFileSlot = if w.isMissing then .null else w := hstands
    rcases hsingle with hmissing | ⟨_, helement⟩
    · rw [hlookup, if_pos hmissing]
      refine iff_of_false ?_ ?_
      · rintro ⟨_, heq, _⟩
        cases heq
      · rintro ⟨id, tok, heq, _⟩
        cases heq
        cases hmissing
    · obtain ⟨id, rfl, hid⟩ := isElement_object helement
      rw [hlookup, if_neg (show ¬ (Value.object id).isMissing = true from Bool.false_ne_true)]
      constructor
      · rintro ⟨_, heq, tok, htok, hkind⟩
        cases heq
        exact ⟨id, tok, rfl, (hs.token?_keeps h.old.keeps hid).symm.trans htok, hkind⟩
      · rintro ⟨_, tok, heq, htok, hkind⟩
        cases heq
        exact ⟨id, rfl, tok, (hs.token?_keeps h.old.keeps hid).trans htok, hkind⟩

end FillNode

end Store

theorem Layout.mem_of_arity? {layout : Layout} {slot : Text} {arity : Value} (h : layout.arity? slot = some arity) :
    (slot, arity) ∈ layout := by
  rw [Layout.arity?] at h
  split at h
  · cases h
  · cases h
  · rename_i arity' _ hget
    cases h
    exact Members.mem_of_get? hget

/-! ## Calls -/

namespace Call

/-- A call of a variant as a grammar declares it, each slot once, and with a slot for the end-of-file token in a source
file; there is no slot with the name of the base. -/
structure Declared (c : Call) : Prop where
  plain : c.variant.layout.has baseName = false
  names : c.variant.layout.names.Nodup
  endOfFile : ∀ g source input, c = .file g source input → g.sourceFile.layout.arity? endOfFileSlot = some Layout.one

/-- The nodes below a new source file can be listed. -/
def Listable (s : Store) : Call → Prop
  | .node .. => True
  | .file g source input => ∀ id t,
    Store.addFile g.sourceFile (.ofNat g.endOfFileKind) source input s = (.ok id, t) → (t.nodesOf id).2 = none

/-- What a call accepts. -/
def Accepted (s : Store) (c : Call) : Prop :=
  s.Accepts c.variant.layout c.input ∧ c.Listable s ∧
    match c with
    | .node v _ => v.isSourceFile = false
    | .file g _ input => s.EndsFile (.ofNat g.endOfFileKind) input

/-- What is given in a call can be looked at: lists can be gone through, children that are attached already show their
kind, and the nodes below can be listed. -/
structure Inspectable (c : Call) (s : Store) : Prop where
  passable : ∀ entry ∈ c.variant.layout, s.Passable entry.2 (c.input.read entry.1)
  recognizable : s.Recognizable (s.offers c.variant.layout c.input)
  listable : c.Listable s

end Call

namespace Store

variable {s t : Store} {c : Call}

theorem create_ok_iff (hs : s.Grounded) (hc : s.Closed) {v : Variant} {input : Input} (hv : v.self < s.size)
    (hinput : ∀ slot, (input.read slot).Within s.size) (hplain : v.layout.has baseName = false)
    (hnames : v.layout.names.Nodup) :
    (∃ id t, create v input s = (.ok id, t)) ↔ s.Accepts v.layout input ∧ v.isSourceFile = false := by
  cases hfile : v.isSourceFile with
  | true =>
    refine iff_of_false (fun ⟨id, t, h⟩ => ?_) fun h => by cases h.2
    rw [create_def, hfile] at h
    cases h
  | false =>
    rw [create_eq v input hfile, fillNode_ok_iff hs hc hinput hplain hnames (plainNode_fits hv)
      fun _ => iff_of_true ⟨_, rfl⟩ rfl]

theorem addFile_ok_iff (hs : s.Grounded) (hc : s.Closed) {v : Variant} {input : Input} (hv : v.self < s.size)
    (hinput : ∀ slot, (input.read slot).Within s.size) (hplain : v.layout.has baseName = false)
    (hnames : v.layout.names.Nodup) (hslot : (endOfFileSlot, Layout.one) ∈ v.layout) (kind : Value) (source : Source) :
    (∃ id t, addFile v kind source input s = (.ok id, t)) ↔ s.Accepts v.layout input ∧ s.EndsFile kind input := by
  rw [addFile_eq, fillNode_ok_iff hs hc hinput hplain hnames (fileNode_fits hv) fun hfill =>
    fileNode_ok_iff hs hfill hplain hnames hslot source]

theorem createSourceFile_ok_iff {g : Grammar} {source : Source} {input : Input} :
    (∃ id t, createSourceFile g source input s = (.ok id, t)) ↔
      (∃ id t, addFile g.sourceFile (.ofNat g.endOfFileKind) source input s = (.ok id, t)) ∧
      (Call.file g source input).Listable s := by
  rcases hadd : addFile g.sourceFile (.ofNat g.endOfFileKind) source input s with ⟨failure | id, t⟩
  · refine iff_of_false ?_ ?_
    · rintro ⟨id, u, h⟩
      rw [createSourceFile_def, Building.bind_error hadd] at h
      cases h
    · rintro ⟨⟨id, u, h⟩, _⟩
      cases h
  · have hlistable : (Call.file g source input).Listable s ↔ (t.nodesOf id).2 = none := by
      refine ⟨fun h => h id t hadd, fun h id' t' hadd' => ?_⟩
      cases hadd.symm.trans hadd'
      exact h
    rw [hlistable, createSourceFile_def, Building.bind_ok hadd]
    rcases hnodes : t.nodesOf id with ⟨nodes, _ | failure⟩
    · have hrecord : recordRoots id t = (.ok (), t.recordRoot id nodes) := by rw [recordRoots_def, hnodes]; rfl
      rw [Building.bind_ok hrecord]
      exact iff_of_true ⟨_, _, rfl⟩ ⟨⟨_, _, rfl⟩, rfl⟩
    · have hrecord : recordRoots id t = (.error failure, t.recordRoot id nodes) := by rw [recordRoots_def, hnodes]; rfl
      rw [Building.bind_error hrecord]
      refine iff_of_false ?_ fun h => by cases h.2
      rintro ⟨_, _, h⟩
      cases h

theorem run_ok_iff (hs : s.Grounded) (hc : s.Closed) (hgiven : c.Given s) (hdeclared : c.Declared) :
    (∃ id t, c.run s = (.ok id, t)) ↔ c.Accepted s := by
  have hv := lt_size_of_object? hgiven.variant
  cases c with
  | node v input =>
    refine (create_ok_iff hs hc hv hgiven.input hdeclared.plain hdeclared.names).trans ?_
    exact ⟨fun h => ⟨h.1, trivial, h.2⟩, fun h => ⟨h.1, h.2.2⟩⟩
  | file g source input =>
    have hslot := Layout.mem_of_arity? (hdeclared.endOfFile g source input rfl)
    have hadd := addFile_ok_iff (v := g.sourceFile) hs hc hv hgiven.input hdeclared.plain hdeclared.names hslot
      (.ofNat g.endOfFileKind) source
    refine createSourceFile_ok_iff.trans ((and_congr_left' hadd).trans ?_)
    exact ⟨fun h => ⟨h.1.1, h.2, h.1.2⟩, fun h => ⟨⟨h.1, h.2.2⟩, h.2.1⟩⟩

theorem receives_of_run (hs : s.Grounded) (hc : s.Closed) (hgiven : c.Given s) (hdeclared : c.Declared)
    {id : ObjectId} (h : c.run s = (.ok id, t)) : s.Receives c.variant.layout c.input id t := by
  have hv := lt_size_of_object? hgiven.variant
  have hh := Input.harmless_of_plain (s := s) hdeclared.plain c.input
  cases c with
  | node v input =>
    rcases create_spec hs hc hv hgiven.input hh with ⟨_, n, rows, u, hrun, hmade, hvariant, _⟩ | ⟨failure, u, hrun, _⟩
    · cases hrun.symm.trans h
      exact hmade.receives hs hdeclared.plain hdeclared.names (by rw [hvariant]; rfl) (.refl _) (fun _ => rfl)
        (fun _ => rfl) hmade.grown.grounded
    · cases hrun.symm.trans h
  | file g source input =>
    rcases createSourceFile_spec hs hc hv source hgiven.input hh with
      ⟨_, n, rows, u, nodes, hrun, hmade, hvariant, _⟩ | ⟨failure, u, hrun, _⟩ |
      ⟨failure, _, n, rows, u, nodes, hrun, _⟩
    · cases hrun.symm.trans h
      exact hmade.receives hs hdeclared.plain hdeclared.names (by rw [hvariant]; rfl) (keeps_recordRoot ..)
        (fun x => parent?_recordRoot u _ nodes x) (fun x => isOwned_recordRoot u _ nodes x)
        (hmade.grown.recordRoot _ nodes).grounded
    · cases hrun.symm.trans h
    · cases hrun.symm.trans h

theorem malformed_of_run (hs : s.Grounded) (hc : s.Closed) (hgiven : c.Given s) (hdeclared : c.Declared)
    (hinspectable : c.Inspectable s) {failure : Failure} (h : c.run s = (.error failure, t)) : failure.IsMalformed := by
  have hv := lt_size_of_object? hgiven.variant
  have hh := Input.harmless_of_plain (s := s) hdeclared.plain c.input
  cases c with
  | node v input =>
    cases hfile : v.isSourceFile with
    | true =>
      have hrun : create v input s = (.error (.ofTree (.malformed .sourceFileVariant (.text v.name))), s) := by
        rw [create_def, hfile]
        rfl
      cases hrun.symm.trans h
      exact ⟨_, _, rfl⟩
    | false =>
      rcases create_spec hs hc hv hgiven.input hh with ⟨_, n, rows, u, hrun, _⟩ | ⟨f, u, hrun, ⟨htrue, _⟩ | hfails⟩
      · cases hrun.symm.trans h
      · cases hfile.symm.trans htrue
      · cases hrun.symm.trans h
        exact hfails.malformed hs hc hdeclared.plain hdeclared.names ((create_eq v input hfile) ▸ hrun)
          (fun hchoose => by cases hchoose) hinspectable.passable hinspectable.recognizable
  | file g source input =>
    rcases addFile_spec hs hc hv (.ofNat g.endOfFileKind) source hgiven.input hh with
      ⟨id, n, rows, u, hadd, _⟩ | ⟨f, u, hadd, hfails⟩
    · obtain ⟨id', t', hrun⟩ := createSourceFile_ok_iff.mpr ⟨⟨id, u, hadd⟩, hinspectable.listable⟩
      cases hrun.symm.trans h
    · have hrun : createSourceFile g source input s = (.error f, u) := Building.bind_error hadd
      cases hrun.symm.trans h
      refine hfails.malformed hs hc hdeclared.plain hdeclared.names (addFile_eq .. ▸ hadd) (fun {u f} hchoose => ?_)
        hinspectable.passable hinspectable.recognizable
      rw [fileNode] at hchoose
      split at hchoose
      · cases hchoose
      · exact refuse_malformed hchoose

/-- The nodes below a new source file can be listed if all nodes that are given were returned. -/
theorem Rooted.listable {made : List ObjectId} (h : s.Rooted made) (hsound : s.Sound made) (hgiven : c.Given s)
    (hh : c.Harmless s) (hgenuine : c.Genuine s made) : c.Listable s := by
  cases c with
  | node v input => exact trivial
  | file g source input =>
    intro id t hadd
    have hv := lt_size_of_object? hgiven.variant
    rcases addFile_spec hsound.grounded hsound.closed hv (.ofNat g.endOfFileKind) source hgiven.input hh with
      ⟨_, n, rows, _, hadd', hmade, _⟩ | ⟨_, _, hadd', _⟩
    · cases hadd.symm.trans hadd'
      rcases hnodes : t.nodesOf id with ⟨nodes, _ | failure⟩
      · rfl
      · have hrecord : recordRoots id t = (.error failure, t.recordRoot id nodes) := by rw [recordRoots_def, hnodes]; rfl
        have hrun : (Call.file g source input).run s = (.error failure, t.recordRoot id nodes) :=
          (Building.bind_ok hadd).trans (Building.bind_error hrecord)
        exact absurd hnodes
          (h.nodesOf_ne_failure hsound hmade (genuine_children_recordRoot hgenuine hrun hmade) nodes failure)
    · cases hadd.symm.trans hadd'

/-- Exactly what is accepted can be made into a node, which then has what was given, and every refusal is for a
malformed tree, as long as what is given can be looked at. Nodes that were returned can be listed. -/
theorem run_decided (hs : s.Grounded) (hc : s.Closed) (hgiven : c.Given s) (hdeclared : c.Declared) :
    ((∃ id t, c.run s = (.ok id, t)) ↔ c.Accepted s) ∧
    (∀ id t, c.run s = (.ok id, t) → s.Receives c.variant.layout c.input id t) ∧
    (∀ failure t, c.run s = (.error failure, t) → c.Inspectable s → failure.IsMalformed) ∧
    ∀ made, Reached (fun s made c => c.Harmless s ∧ c.Genuine s made) s made → c.Genuine s made → c.Listable s :=
  ⟨run_ok_iff hs hc hgiven hdeclared, fun _ _ => receives_of_run hs hc hgiven hdeclared,
    fun _ _ h hinspectable => malformed_of_run hs hc hgiven hdeclared hinspectable h,
    fun _ h hgenuine => (h.rooted id).listable (h.sound And.left) hgiven
      (Input.harmless_of_plain hdeclared.plain c.input) hgenuine⟩

end Store

namespace Sample

open Store

theorem declared_leafCall (word : ObjectId) : (leafCall word).Declared where
  plain := (by decide : leaf.layout.has baseName = false)
  names := (by decide : leaf.layout.names.Nodup)
  endOfFile := nofun

theorem declared_documentCall (source : Source) (body : List ObjectId) (endOfFile : ObjectId) :
    (documentCall source body endOfFile).Declared where
  plain := (by decide : document.layout.has baseName = false)
  names := (by decide : document.layout.names.Nodup)
  endOfFile g source input h := by
    cases h
    decide

/-- A leaf of the first token. -/
def sprout : Store := ((leafCall 12).run stock).2

theorem reached_sprout : Reached (fun s made c => c.Harmless s ∧ c.Genuine s made) sprout [18] :=
  (reached_stock _).runAll [leafCall 12] (.cons rfl .nil) (by decide +kernel)

/-- A document of the leaf is accepted and has it as a child, but a second leaf of the token is refused. -/
theorem run_decided_sprout :
    (sprout.Grounded ∧ sprout.Closed) ∧
    ((documentCall letters [18] 15).Given sprout ∧ (documentCall letters [18] 15).Declared ∧
      (documentCall letters [18] 15).Listable sprout ∧ (documentCall letters [18] 15).Accepted sprout ∧
      sprout.Receives document.layout (documentCall letters [18] 15).input 21
        ((documentCall letters [18] 15).run sprout).2) ∧
    ((leafCall 12).Given sprout ∧ (leafCall 12).Declared ∧ (leafCall 12).Inspectable sprout ∧
      ∃ failure, ((leafCall 12).run sprout).1 = .error failure ∧ failure.IsMalformed) := by
  have hsound := reached_sprout.sound And.left
  have hdocument : (documentCall letters [18] 15).Given sprout := given_documentCall (by decide +kernel)
  have hleaf : (leafCall 12).Given sprout := given_leafCall (by decide +kernel)
  have hrun : (documentCall letters [18] 15).run sprout = (.ok 21, ((documentCall letters [18] 15).run sprout).2) :=
    Prod.ext (by decide +kernel) rfl
  obtain ⟨haccepted, hreceives, _, hlistable⟩ :=
    run_decided hsound.grounded hsound.closed hdocument (declared_documentCall letters [18] 15)
  obtain ⟨_, _, hmalformed, _⟩ := run_decided hsound.grounded hsound.closed hleaf (declared_leafCall 12)
  have hinspectable : (leafCall 12).Inspectable sprout :=
    { passable := fun entry hentry harity => by
        rw [List.mem_singleton.mp hentry] at harity
        cases harity
      recognizable := fun id hid hnode => by
        have hword : sprout.offers leaf.layout (leafCall 12).input = [.object 12] := by decide +kernel
        obtain rfl : id = 12 := Value.object.inj (List.mem_singleton.mp (hword ▸ hid))
        exact absurd hnode (by decide +kernel)
      listable := trivial }
  exact ⟨⟨hsound.grounded, hsound.closed⟩,
    ⟨hdocument, declared_documentCall .., hlistable _ reached_sprout (by decide +kernel), haccepted.mp ⟨_, _, hrun⟩,
      hreceives _ _ hrun⟩,
    hleaf, declared_leafCall 12, hinspectable, _, rfl, hmalformed _ _ rfl hinspectable⟩

/-! ### What cannot be looked at -/

/-- A kind of node with a slot for a list. -/
def sheaf : Variant :=
  { self := 17, kind := 3, name := "Sheaf", layout := [("items", Layout.many)], isSourceFile := false }

/-- Makes a sheaf of a list. -/
def sheafCall (items : ObjectId) : Call := .node sheaf (.ofMembers [("items", .one (.object items))])

/-- A variant with its layout, and a list that has the members of a token. -/
def listObjects : List Object :=
  [.variant sheaf, .ofMembers sheaf.layout,
    .list (.ofList []) [("tag", .text "token"), ("kind", .ofNat 1), ("fullStart", .number 0), ("start", .number 0)]
      false]

/-- The stock with these, and with a list that extends an error instead of what lists extend. -/
def lists : Store := addOn (stock.addAll listObjects) (.list (.ofList []) [] false) 16

/-- A leaf, an object that extends it and has no variant, and a leaf of that object. -/
def unnamed : Store := ((leafCall 23).run (extendWith ((leafCall 12).run lists).2 [("variant", .null)] 22)).2

theorem reached_unnamed : Reached (fun s _ c => c.Harmless s) unnamed [25, 22] := by
  have hstock := (reached_stock fun s _ c => c.Harmless s).sound id
  have hadded : stock.Untouched (stock.addAll listObjects) := by
    refine untouched_addAll hstock.grounded hstock.closed fun o ho => ?_
    simp only [listObjects, List.mem_cons, List.not_mem_nil, or_false] at ho
    rcases ho with rfl | rfl | rfl
    · exact Object.refers_of_members nofun (by decide)
    · exact Object.refers_of_members nofun (by decide)
    · exact Object.refers_list nofun (by decide)
  have hlists := untouched_addOn (o := .list (.ofList []) [] false) hadded.grounded hadded.closed
    (Object.refers_list nofun nofun) 16 (by decide +kernel)
  have hleaf : Reached (fun s _ c => c.Harmless s) ((leafCall 12).run lists).2 [22] :=
    (Reached.between (.between (reached_stock _) hadded) hlists).runAll [leafCall 12] (.cons rfl .nil)
      (by decide +kernel)
  have hsound := hleaf.sound id
  have hextended := untouched_extendWith (m := [("variant", .null)]) hsound.grounded hsound.closed
    (Object.refers_of_members nofun (by decide)) 22 (hsound.lt_size (by decide))
  exact (Reached.between hleaf hextended).runAll [leafCall 23] (.cons rfl .nil) (by decide +kernel)

/-- A list that extends something else cannot be gone through, so that no node can be made of it although it has no
entry that is foreign; a token that is a list is refused where a single child is expected; and a leaf of an object that
is attached already and has no variant is refused, but not for a malformed tree. -/
theorem not_malformed_unnamed : Reached (fun s _ c => c.Harmless s) unnamed [25, 22] ∧
    (unnamed.items? (.object 20) = some (.ofList []) ∧
      ((sheafCall 20).run unnamed).1 = .error (.misuse .noOperation)) ∧
    ((unnamed.isElement (.object 19) = true ∧ unnamed.isOwned 19 = false) ∧
      ((leafCall 19).run unnamed).1 = .error (.ofTree (.malformed (.singleExpected "word") (.text "Leaf")))) ∧
    (unnamed.isElement (.object 23) = true ∧ unnamed.parent? 23 = some 25) ∧
      ((leafCall 23).run unnamed).1 = .error (.misuse .noMembers) :=
  ⟨reached_unnamed, by decide +kernel⟩

end Sample

end LosslessSyntax
