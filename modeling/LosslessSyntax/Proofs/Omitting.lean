import LosslessSyntax.Proofs.Accepting
import LosslessSyntax.Proofs.Enclosing

/-!
# Slots that are left out

A slot for which nothing is given can be left out of what a node is made of, unless every record answers to its name
(`create_omitting`).

* What a call comes to is determined by what the checks of its slots come to: one slot (`Filling.fillSlot_congr`), the
  slots of a layout by induction (`Filling.fillSlots_congr`), and the call (`create_congr`).
* A call that succeeds has passed all of these checks (`checks_of_create`).
* A bare record answers to a name that it does not have with what is common to all records (`BareRecord.lookup`): with
  a function, which no slot accepts, or with nothing.
* A slot of a loaded grammar does not have the name of the base (`plain_of_ofValue`).
-/

namespace LosslessSyntax

/-- Members of which some are left out. -/
def Members.without {α : Type} (m : Members α) (omitted : Text → Bool) : Members α :=
  m.filter fun entry => !omitted entry.1

theorem Members.get?_without {α : Type} (m : Members α) (omitted : Text → Bool) (name : Text) :
    (m.without omitted).get? name = if omitted name then none else m.get? name := by
  induction m with
  | nil => exact (ite_self _).symm
  | cons entry m ih =>
    rw [without, List.filter_cons, get?_cons]
    by_cases hname : name = entry.1
    · subst hname
      cases homitted : omitted entry.1 with
      | false => simp [get?_cons]
      | true =>
        rw [without, homitted] at ih
        simpa [homitted] using ih
    · split
      · rw [get?_cons, if_neg hname]
        exact ih
      · exact ih

/-- What is read of the members of a bare record. -/
def Input.ofValues (m : Members Value) : Input := ⟨m.names, fun slot => .one ((m.get? slot).getD (undeclared slot))⟩

/-! ## Names that all records answer to -/

/-- Whether every record answers to a name, such as `constructor` or `toString`. -/
def isCommon (name : Text) : Bool := Ground.record.members.has name

/-- A record that does not have a name answers to it with an operation, if it is a common one. -/
theorem undeclared_of_isCommon {name : Text} (hne : name ≠ baseName) (h : isCommon name = true) :
    ∃ operation, undeclared name = .operation operation := by
  have hall : ∀ entry ∈ Ground.record.members, ∃ operation, entry.2 = .operation operation := by
    refine List.forall_mem_cons.mpr ⟨⟨_, rfl⟩, fun entry hentry => ?_⟩
    obtain ⟨operation, _, rfl⟩ := List.mem_map.mp hentry
    exact ⟨operation, rfl⟩
  obtain ⟨v, hv⟩ := Members.exists_get? h
  rw [undeclared, if_neg hne, hv]
  exact hall _ (Members.mem_of_get? hv)

theorem undeclared_of_not_isCommon {name : Text} (hne : name ≠ baseName) (h : isCommon name = false) :
    undeclared name = .undefined := by
  rw [isCommon, ← Members.isSome_get?, Option.isSome_eq_false_iff, Option.isNone_iff_eq_none] at h
  rw [undeclared, if_neg hne, h]
  rfl

namespace Building

variable {α β : Type} {x y : Building α} {s t : Store}

theorem bind_congr_left (h : x s = y s) (f : α → Building β) : (x >>= f) s = (y >>= f) s := by
  rcases hy : y s with ⟨_ | a, t⟩
  · rw [bind_error (h.trans hy), bind_error hy]
  · rw [bind_ok (h.trans hy), bind_ok hy]

theorem forgetting_congr (h : x s = y s) : x.forgetting s = y.forgetting s := by
  rw [forgetting, forgetting, h]

theorem forgetting_eq_ok {a : α} (h : x.forgetting s = (.ok a, t)) : x s = (.ok a, t) := by
  rcases hx : x s with ⟨_ | b, u⟩ <;> simp only [forgetting, hx] at h
  · cases h
  · exact h

end Building

namespace Store

variable {s t u : Store} {p : Plan} {input other : Input}

/-! ## Calls that are checked alike -/

section Alike

variable {filled : List Text} {m : Members Value} {base : Option ObjectId} {slot : Text} {arity : Value} {slots : Layout}

/-- The checks of some slots come out the same for two inputs. -/
def ChecksAlike (s : Store) (kind : Value) (slots : Layout) (input other : Input) : Prop :=
  ∀ entry ∈ slots, s.checkSlot kind entry.1 entry.2 (other.read entry.1) =
    s.checkSlot kind entry.1 entry.2 (input.read entry.1)

theorem Filling.fillSlot_congr (hs : s.Grounded) (hc : s.Closed) (hinput : ∀ slot, (input.read slot).Within s.size)
    (hother : ∀ slot, (other.read slot).Within s.size) (h : Filling s p input filled m base false t)
    (halike : s.checkSlot p.kind slot arity (other.read slot) = s.checkSlot p.kind slot arity (input.read slot)) :
    Store.fillSlot p other s.size slot arity t = Store.fillSlot p input s.size slot arity t := by
  rw [fillSlot_def, fillSlot_def]
  refine Building.bind_congr_left ?_ _
  rw [Building.read, Building.read, hs.checkSlot_keeps hc h.old.keeps (hother slot),
    hs.checkSlot_keeps hc h.old.keeps (hinput slot), halike]

/-- The induction is on the slots that are left, with the store in which the others have been filled. -/
theorem Filling.fillSlots_congr (hs : s.Grounded) (hc : s.Closed) (hinput : ∀ slot, (input.read slot).Within s.size)
    (hother : ∀ slot, (other.read slot).Within s.size) (hh : input.Harmless s p.layout)
    (h : Filling s p input filled m base false t) (hslots : ∀ entry ∈ slots, entry ∈ p.layout)
    (halike : s.ChecksAlike p.kind slots input other) :
    slots.forM (fun entry => Store.fillSlot p other s.size entry.1 entry.2) t =
      slots.forM (fun entry => Store.fillSlot p input s.size entry.1 entry.2) t := by
  induction slots generalizing filled m base t with
  | nil => rfl
  | cons entry slots ih =>
    have hfirst := h.fillSlot_congr hs hc hinput hother (halike entry List.mem_cons_self)
    rw [Building.forM_cons, Building.forM_cons]
    rcases h.fillSlot hs hc hinput hh (hslots entry List.mem_cons_self) with
      ⟨m', base', u, hfill, hu⟩ | ⟨failure, u, hfill, _⟩
    · rw [Building.bind_ok hfill, Building.bind_ok (hfirst.trans hfill)]
      exact ih hu (fun e he => hslots e (List.mem_cons_of_mem _ he)) fun e he => halike e (List.mem_cons_of_mem _ he)
    · rw [Building.bind_error hfill, Building.bind_error (hfirst.trans hfill)]

theorem makeSlots_congr (hs : s.Grounded) (hc : s.Closed) (hinput : ∀ slot, (input.read slot).Within s.size)
    (hother : ∀ slot, (other.read slot).Within s.size) (hh : input.Harmless s p.layout)
    (hunknown : unknownSlot? p other = unknownSlot? p input) (halike : s.ChecksAlike p.kind p.layout input other) :
    makeSlots p other s = makeSlots p input s := by
  rw [makeSlots_def, makeSlots_def, hunknown]
  cases unknownSlot? p input with
  | some name => rfl
  | none =>
    have hadd : Building.add (.ofMembers []) s = (.ok s.size, (s.add (.ofMembers [])).2) := rfl
    simp only
    rw [Building.bind_ok hadd, Building.bind_ok hadd]
    exact Building.bind_congr_left
      ((filling_add s p input).fillSlots_congr hs hc hinput hother hh (fun _ => id) halike) _

/-- What a call comes to is determined by what the checks of its slots come to. -/
theorem create_congr (hs : s.Grounded) (hc : s.Closed) {v : Variant} (hinput : ∀ slot, (input.read slot).Within s.size)
    (hother : ∀ slot, (other.read slot).Within s.size) (hh : input.Harmless s v.layout)
    (hunknown : unknownSlot? v.plan other = unknownSlot? v.plan input)
    (halike : s.ChecksAlike (.text v.name) v.layout input other) : create v other s = create v input s := by
  cases hfile : v.isSourceFile with
  | true => rw [create_def, create_def, hfile, if_pos rfl, if_pos rfl]
  | false =>
    rw [create_eq v other hfile, create_eq v input hfile]
    refine Building.forgetting_congr (Building.bind_congr_left ?_ _)
    exact makeSlots_congr hs hc hinput hother hh hunknown halike

/-! ## Calls that succeed -/

/-- Slots that were filled passed their checks. -/
theorem Filling.checks (hs : s.Grounded) (hc : s.Closed) (hinput : ∀ slot, (input.read slot).Within s.size)
    (hh : input.Harmless s p.layout) (h : Filling s p input filled m base false t)
    (hslots : ∀ entry ∈ slots, entry ∈ p.layout)
    (hrun : slots.forM (fun entry => Store.fillSlot p input s.size entry.1 entry.2) t = (.ok (), u)) :
    ∀ entry ∈ slots, ∃ checked, s.checkSlot p.kind entry.1 entry.2 (input.read entry.1) = .ok checked := by
  induction slots generalizing filled m base t with
  | nil => exact List.forall_mem_nil _
  | cons entry slots ih =>
    rw [Building.forM_cons] at hrun
    obtain ⟨_, w, hfirst, hrest⟩ := Building.bind_eq_ok hrun
    obtain ⟨checked, _, hread, _⟩ := Building.bind_eq_ok hfirst
    have hcheck : t.checkSlot p.kind entry.1 entry.2 (input.read entry.1) = .ok checked := congrArg Prod.fst hread
    rw [hs.checkSlot_keeps hc h.old.keeps (hinput entry.1)] at hcheck
    refine List.forall_mem_cons.mpr ⟨⟨checked, hcheck⟩, ?_⟩
    rcases h.fillSlot hs hc hinput hh (hslots entry List.mem_cons_self) with
      ⟨m', base', u, hfill, hu⟩ | ⟨failure, u, hfill, _⟩
    · cases hfirst.symm.trans hfill
      exact ih hu (fun e he => hslots e (List.mem_cons_of_mem _ he)) hrest
    · cases hfirst.symm.trans hfill

theorem checks_of_create (hs : s.Grounded) (hc : s.Closed) {v : Variant} (hfile : v.isSourceFile = false)
    (hinput : ∀ slot, (input.read slot).Within s.size) (hh : input.Harmless s v.layout) {id : ObjectId}
    (hcreate : create v input s = (.ok id, t)) : unknownSlot? v.plan input = none ∧
      ∀ entry ∈ v.layout, ∃ checked, s.checkSlot (.text v.name) entry.1 entry.2 (input.read entry.1) = .ok checked := by
  rw [create_eq v input hfile] at hcreate
  obtain ⟨record, u, hmake, _⟩ := Building.bind_eq_ok (Building.forgetting_eq_ok hcreate)
  rw [makeSlots_def] at hmake
  cases hunknown : unknownSlot? v.plan input with
  | some name =>
    rw [hunknown] at hmake
    cases hmake
  | none =>
    rw [hunknown] at hmake
    simp only at hmake
    have hadd : Building.add (.ofMembers []) s = (.ok s.size, (s.add (.ofMembers [])).2) := rfl
    rw [Building.bind_ok hadd] at hmake
    obtain ⟨_, w, hfill, _⟩ := Building.bind_eq_ok hmake
    exact ⟨rfl, (filling_add s v.plan input).checks hs hc hinput hh (fun _ hentry => hentry) hfill⟩

end Alike

/-! ## Checks of nothing -/

section Nothing

variable {kind arity v : Value} {slot : Text} {checked : SlotValue}

/-- A missing value, or a list without items. -/
def IsNothing (s : Store) (v : Value) : Prop :=
  v.isMissing = true ∨ ∃ items, s.items? v = some items ∧ items.values = []

/-- What is kept in a slot for which nothing is given. -/
def vacant (arity : Value) : SlotValue := if arity = Layout.many then .many [] else .one .null

theorem settle_of_isMissing (h : v.isMissing = true) : s.settle arity (.one v) = vacant arity := by
  rw [settle, vacant]
  split
  · simp only [items?_of_isMissing h, Option.elim_none]
  · rw [SlotValue.settled, if_pos h]

theorem checkSlot_of_isMissing (h : v.isMissing = true) :
    s.checkSlot kind slot arity (.one v) = .ok (vacant arity) := by
  refine checkSlot_eq_ok_iff.mpr ⟨?_, (settle_of_isMissing h).symm⟩
  rw [Suits]
  split
  · exact .inl h
  · exact .inl h

/-- An empty list does not pass the check of a slot for a single child. -/
theorem eq_vacant_of_checkSlot (h : s.IsNothing v) (hcheck : s.checkSlot kind slot arity (.one v) = .ok checked) :
    checked = vacant arity := by
  obtain ⟨hsuits, rfl⟩ := checkSlot_eq_ok_iff.mp hcheck
  rcases h with hmissing | ⟨items, hitems, hvalues⟩
  · exact settle_of_isMissing hmissing
  · rw [Suits] at hsuits
    rw [settle, vacant]
    split
    · simp only [hitems, Option.elim_some, hvalues]
    · rename_i harity
      rw [if_neg harity] at hsuits
      rcases hsuits with hmissing | ⟨hlist, _⟩
      · rw [items?_of_isMissing hmissing] at hitems
        cases hitems
      · rw [isList_eq_isSome_items?, hitems] at hlist
        cases hlist

/-- Why an operation is refused in a slot. -/
def operationCause (slot : Text) (arity : Value) : Malformation :=
  if arity = Layout.many then .listExpected slot else .foreignValue slot

theorem checkSlot_operation (operation : Text) : s.checkSlot kind slot arity (.one (.operation operation)) =
    .error (.ofTree (.malformed (operationCause slot arity) kind)) := by
  rw [checkSlot, operationCause]
  split <;> rfl

end Nothing

/-! ## Bare records -/

/-- A record with some members that extends nothing but the ground of records. -/
def BareRecord (s : Store) (id : ObjectId) (m : Members Value) : Prop :=
  (∃ isSealed, s.object? id = some (.record m isSealed)) ∧ s.base? id = some Ground.record.id

section BareRecord

variable {id : ObjectId} {m : Members Value}

theorem own?_record (m : Members Value) (isSealed : Bool) (name : Text) :
    (Object.record m isSealed).own? name = m.get? name := by
  simp [Object.own?, Object.hidden, Object.listed, Members.get?]

/-- A bare record answers to a name that it does not have with what is common to all records. -/
theorem BareRecord.lookup (hs : s.Grounded) (h : s.BareRecord id m) (name : Text) :
    s.lookup id name = (m.get? name).getD (undeclared name) := by
  obtain ⟨⟨isSealed, ho⟩, hbase⟩ := h
  have hid : Ground.ofId? id = none := hs.ofId?_eq_none ho fun g heq => by cases heq
  have hown := own?_record m isSealed name
  cases hget : m.get? name with
  | some v => exact lookup_own ho (hown.trans hget) hid
  | none =>
    obtain ⟨n, hn⟩ := Nat.exists_eq_succ_of_ne_zero (Nat.ne_of_gt (hs.ground_lt .record))
    have hcommon : (Object.ground .record).own? name = Ground.record.members.get? name := by
      simp [Object.own?, Object.hidden, Object.listed, Members.get?]
    rw [Store.lookup, seek, seekFrom_succ, ho, hbase, Option.bind_some, hown, hget]
    simp only [Option.bind_some]
    rw [hn, Nat.succ_eq_add_one, seekFrom_succ, hs.object .record, hs.base .record, Option.bind_some, hcommon,
      Option.getD_none, undeclared]
    cases hmember : Ground.record.members.get? name with
    | none =>
      have hne : name ≠ baseName := by
        rintro rfl
        cases hmember
      rw [if_neg hne]
      rfl
    | some v =>
      have hofId : Ground.ofId? Ground.record.id = some .record := rfl
      simp only [hofId, groundMember, hbase]
      by_cases hname : name = baseName <;> simp [hname]

/-- What a bare record is read as when a node is made of it. -/
theorem BareRecord.ofValue (hs : s.Grounded) (h : s.BareRecord id m) :
    Input.ofValue s (.object id) = .ok (.ofValues m) := by
  have hread : (fun slot => SlotValue.one ((s.member slot (.object id)).toOption.getD .undefined)) =
      fun slot => .one ((m.get? slot).getD (undeclared slot)) :=
    funext fun slot => congrArg SlotValue.one (h.lookup hs slot)
  have hnames : s.names (.object id) = m.names := by
    obtain ⟨⟨isSealed, ho⟩, _⟩ := h
    rw [Store.names, Store.listed, ho]
    rfl
  rw [Input.ofValue, hread, hnames]
  rfl

theorem BareRecord.within (hc : s.Closed) (hs : s.Grounded) (h : s.BareRecord id m) (slot : Text) :
    ((Input.ofValues m).read slot).Within s.size := by
  obtain ⟨⟨isSealed, ho⟩, _⟩ := h
  show ((m.get? slot).getD (undeclared slot)).Within s.size
  cases hget : m.get? slot with
  | none => exact undeclared_within (hs.ground_lt .record) slot
  | some v => exact (hc.refers ho).own ((own?_record m isSealed slot).trans hget)

end BareRecord

/-! ## Leaving slots out -/

/-- All slots are listed, and those that are to be left out with nothing in them. -/
structure Omissible (s : Store) (layout : Layout) (m : Members Value) (omitted : Text → Bool) : Prop where
  listed : ∀ slot ∈ layout.names, m.has slot = true
  nothing : ∀ entry ∈ m, omitted entry.1 = true → s.IsNothing entry.2

section Omissible

variable {layout : Layout} {m : Members Value} {omitted : Text → Bool} {kind arity : Value} {slot : Text}
  {checked : SlotValue}

theorem Omissible.read (h : s.Omissible layout m omitted) (hslot : slot ∈ layout.names) (homitted : omitted slot = true) :
    ∃ v, (Input.ofValues m).read slot = .one v ∧ s.IsNothing v := by
  obtain ⟨v, hv⟩ := Members.exists_get? (h.listed slot hslot)
  refine ⟨v, ?_, h.nothing _ (Members.mem_of_get? hv) homitted⟩
  show SlotValue.one ((m.get? slot).getD (undeclared slot)) = .one v
  rw [hv, Option.getD_some]

/-- What the check of a slot comes to after some are left out: the same, but that a slot with a common name is
refused. -/
theorem Omissible.checkSlot (h : s.Omissible layout m omitted) (hplain : layout.has baseName = false)
    (hslot : slot ∈ layout.names)
    (hcheck : s.checkSlot kind slot arity ((Input.ofValues m).read slot) = .ok checked) :
    s.checkSlot kind slot arity ((Input.ofValues (m.without omitted)).read slot) =
      if omitted slot = true ∧ isCommon slot = true then
        .error (.ofTree (.malformed (operationCause slot arity) kind))
      else .ok checked := by
  have hne : slot ≠ baseName := Members.ne_of_has hplain hslot
  have hread : (Input.ofValues (m.without omitted)).read slot =
      .one ((if omitted slot then none else m.get? slot).getD (undeclared slot)) := by
    rw [← Members.get?_without]
    rfl
  rw [hread]
  cases homitted : omitted slot with
  | false =>
    rw [if_neg Bool.false_ne_true, if_neg fun hboth => Bool.false_ne_true hboth.1]
    exact hcheck
  | true =>
    rw [if_pos rfl, Option.getD_none]
    cases hcommon : isCommon slot with
    | true =>
      obtain ⟨operation, hoperation⟩ := undeclared_of_isCommon hne hcommon
      rw [hoperation, checkSlot_operation, if_pos ⟨rfl, rfl⟩]
    | false =>
      obtain ⟨v, hv, hnothing⟩ := h.read hslot homitted
      rw [hv] at hcheck
      rw [undeclared_of_not_isCommon hne hcommon, checkSlot_of_isMissing rfl,
        if_neg fun hboth => Bool.false_ne_true hboth.2, eq_vacant_of_checkSlot hnothing hcheck]

/-- The slots of a node are those of a layout, and some of them are vacant. -/
def Vacates (t : Store) (layout : Layout) (omitted : Text → Bool) (id : ObjectId) : Prop :=
  ∃ slots, t.contents (.object id) = .ok slots ∧ slots.map Prod.fst = layout.names ∧ ∀ content ∈ slots,
    omitted content.1 = true → ∃ arity, (content.1, arity) ∈ layout ∧ t.Stands (vacant arity) content.2

end Omissible

section Create

variable {v : Variant} {m : Members Value} {omitted : Text → Bool} {id : ObjectId}

theorem unknownSlot?_without (h : unknownSlot? v.plan (.ofValues m) = none) :
    unknownSlot? v.plan (.ofValues (m.without omitted)) = none := by
  rw [unknownSlot?_plan] at h ⊢
  exact fun name hname => h name ((List.filter_sublist.map _).subset hname)

/-- A slot that is left out is vacant in the node. -/
theorem Omissible.vacates (h : s.Omissible v.layout m omitted) (hplain : v.layout.has baseName = false) {n : Node}
    {rows : List Row} (hmade : s.Made v.plan (.ofValues m) id n rows t) (hvariant : n.variant = v) :
    t.Vacates v.layout omitted id := by
  have hslots : rows.map Row.slot = v.layout.names := hmade.shows.slots.trans (congrArg Variant.slotNames hvariant)
  refine ⟨_, hmade.shows.contents hmade.grown.grounded, ?_, List.forall_mem_map.mpr fun row hrow homitted => ?_⟩
  · rw [List.map_map]
    exact hslots
  · have hslot : row.slot ∈ v.layout.names := hslots ▸ List.mem_map_of_mem hrow
    obtain ⟨arity, checked, hmem, hcheck, _, hstands⟩ := hmade.given row hrow (Members.ne_of_has hplain hslot)
    obtain ⟨w, hw, hnothing⟩ := h.read hslot homitted
    rw [hw] at hcheck
    obtain rfl := eq_vacant_of_checkSlot hnothing hcheck
    refine ⟨arity, hmem, ?_⟩
    rw [← settle_of_isMissing (s := s) (v := .null) rfl] at hstands ⊢
    exact hstands.content

/-- A call is refused if a slot with a common name is left out. -/
theorem Omissible.refused (h : s.Omissible v.layout m omitted) (hs : s.Grounded) (hc : s.Closed)
    (hself : v.self < s.size) (hfile : v.isSourceFile = false) (hplain : v.layout.has baseName = false)
    (hrest : ∀ slot, ((Input.ofValues (m.without omitted)).read slot).Within s.size)
    (hknown : unknownSlot? v.plan (.ofValues m) = none)
    (hchecks : ∀ entry ∈ v.layout, ∃ checked,
      s.checkSlot (.text v.name) entry.1 entry.2 ((Input.ofValues m).read entry.1) = .ok checked)
    {slot : Text} (hslot : slot ∈ v.layout.names) (homitted : omitted slot = true) (hcommon : isCommon slot = true) :
    ∃ entry ∈ v.layout, omitted entry.1 = true ∧ isCommon entry.1 = true ∧
      create v (.ofValues (m.without omitted)) s =
        (.error (.ofTree (.malformed (operationCause entry.1 entry.2) (.text v.name))), s) := by
  have hspec := fun entry hentry => (hchecks entry hentry).imp fun checked =>
    h.checkSlot hplain (List.mem_map.mpr ⟨entry, hentry, rfl⟩)
  have hfails : ∀ {arity checked}, (slot, arity) ∈ v.layout → s.checkSlot (.text v.name) slot arity
      ((Input.ofValues (m.without omitted)).read slot) ≠ .ok checked := by
    intro arity checked hmem hcheck
    obtain ⟨_, hspec⟩ := hspec _ hmem
    rw [if_pos ⟨homitted, hcommon⟩] at hspec
    cases hcheck.symm.trans hspec
  have hh := Input.harmless_of_plain (s := s) hplain (.ofValues (m.without omitted))
  rcases create_spec hs hc hself hrest hh with
    ⟨id, _, _, t, hrun, _⟩ | ⟨failure, t, hrun, ⟨hfile', _⟩ | hfailed⟩
  · obtain ⟨entry, hentry, rfl⟩ := List.mem_map.mp hslot
    obtain ⟨_, hcheck⟩ := (checks_of_create hs hc hfile hrest hh hrun).2 entry hentry
    exact absurd hcheck (hfails hentry)
  · rw [hfile] at hfile'
    cases hfile'
  · obtain rfl := hfailed.same (Input.unshadowed_of_plain hplain _)
    rcases hfailed.refused hplain with hunknown | ⟨entry, hentry, hcheck⟩ | ⟨m', base, u, hfilling, _⟩
    · rw [unknownSlot?_without hknown] at hunknown
      cases hunknown
    · obtain ⟨_, hspec⟩ := hspec entry hentry
      split at hspec
      · rename_i hboth
        cases hcheck.symm.trans hspec
        exact ⟨entry, hentry, hboth.1, hboth.2, hrun⟩
      · cases hcheck.symm.trans hspec
    · have hhas := (hfilling.complete slot hslot).resolve_left (Members.ne_of_has hplain hslot)
      obtain ⟨w, hw⟩ := Members.exists_get? hhas
      obtain ⟨arity, checked, hmem, hcheck, _⟩ := hfilling.own hw
      exact absurd hcheck (hfails hmem)

/-- The variants of a loaded grammar have no slot with the name of the base. -/
theorem plain_of_ofValue {w : Value} {d : Definition} {g : Grammar} (hload : Definition.ofValue s w = .ok d)
    (hgrammar : s.addGrammar d = .ok (g, t)) (hv : v ∈ g.variants) : v.layout.has baseName = false := by
  obtain ⟨_, hdefine, hadd⟩ := Attempt.bind_eq_ok hgrammar
  cases hadd
  obtain ⟨_, _, hvariants, _⟩ := Grammar.define_ok hdefine
  rw [hvariants] at hv
  obtain ⟨⟨node, kind⟩, hnode, rfl⟩ := List.mem_map.mp hv
  refine List.any_eq_false.mpr fun entry hentry => ?_
  have hne := (layouts_ofValue hload node (List.fst_mem_of_mem_zipIdx hnode) entry hentry).1
  simpa using hne

/-- A node of a loaded grammar is the same if slots are left out in which there is nothing, and these are vacant in it.
But if every record answers to the name of one of them, the call is refused for a malformed tree. -/
theorem create_omitting {s₀ s₁ : Store} {w : Value} {d : Definition} {g : Grammar} {full part : ObjectId}
    {given rest : Input} (hload : Definition.ofValue s₀ w = .ok d) (hgrammar : s₀.addGrammar d = .ok (g, s₁))
    (hv : v ∈ g.variants) (hfile : v.isSourceFile = false) (hs : s.Grounded) (hc : s.Closed) (hself : v.self < s.size)
    (hfull : s.BareRecord full m) (hpart : s.BareRecord part (m.without omitted))
    (homissible : s.Omissible v.layout m omitted)
    (hgiven : Input.ofValue s (.object full) = .ok given) (hrest : Input.ofValue s (.object part) = .ok rest)
    (hcreate : create v given s = (.ok id, t)) :
    ((∀ slot ∈ v.layout.names, omitted slot = true → isCommon slot = false) →
      create v rest s = (.ok id, t) ∧ t.Vacates v.layout omitted id) ∧
    ∀ slot ∈ v.layout.names, omitted slot = true → isCommon slot = true →
      ∃ entry ∈ v.layout, omitted entry.1 = true ∧ isCommon entry.1 = true ∧ create v rest s =
        (.error (.ofTree (.malformed (operationCause entry.1 entry.2) (.text v.name))), s) := by
  obtain rfl : .ofValues m = given := Except.ok.inj ((hfull.ofValue hs).symm.trans hgiven)
  obtain rfl : .ofValues (m.without omitted) = rest := Except.ok.inj ((hpart.ofValue hs).symm.trans hrest)
  have hplain := plain_of_ofValue hload hgrammar hv
  have hh := Input.harmless_of_plain (s := s) hplain (.ofValues m)
  obtain ⟨hknown, hchecks⟩ := checks_of_create hs hc hfile (hfull.within hc hs) hh hcreate
  refine ⟨fun hcommon => ⟨?_, ?_⟩, fun slot hslot => ?_⟩
  · rw [← hcreate]
    refine create_congr hs hc (hfull.within hc hs) (hpart.within hc hs) hh ?_ fun entry hentry => ?_
    · rw [hknown, unknownSlot?_without hknown]
    · obtain ⟨checked, hcheck⟩ := hchecks entry hentry
      have hslot : entry.1 ∈ v.layout.names := List.mem_map.mpr ⟨entry, hentry, rfl⟩
      rw [homissible.checkSlot hplain hslot hcheck, hcheck, if_neg]
      rintro ⟨homitted, hyes⟩
      rw [hcommon entry.1 hslot homitted] at hyes
      cases hyes
  · rcases create_spec hs hc hself (hfull.within hc hs) hh with
      ⟨_, n, rows, u, hrun, hmade, hvariant, _⟩ | ⟨_, _, hrun, _⟩
    · cases hcreate.symm.trans hrun
      exact homissible.vacates hplain hmade hvariant
    · cases hcreate.symm.trans hrun
  · exact homissible.refused hs hc hself hfile hplain (hpart.within hc hs) hknown hchecks hslot

end Create

end Store

namespace Sample

open Store

/-- A kind of node with slots of common names. -/
def entry : Variant :=
  { self := 17, kind := 1, name := "Entry"
    layout := [("constructor", Layout.one), ("word", Layout.one), ("toString", Layout.many), ("notes", Layout.many)]
    isSourceFile := false }

def draft : Definition :=
  { tokens := [.text "Word", .text "End"]
    nodes := [("Document", [(endOfFileSlot, Layout.one)]), ("Entry", entry.layout)]
    sourceFile := .text "Document", endOfFile := .text "End" }

/-- A definition as an object, and a list of nothing. -/
def draftObjects : List Object :=
  [.list (.ofList draft.tokens) [] false, .ofMembers [(endOfFileSlot, Layout.one)], .ofMembers entry.layout,
    .ofMembers [("Document", .object 7), ("Entry", .object 8)],
    .ofMembers [("tokens", .object 6), ("nodes", .object 9), ("sourceFile", draft.sourceFile),
      ("endOfFile", draft.endOfFile)], .list .empty [] false]

def drafted : Store := Store.empty.addAll draftObjects

def ledger : Grammar :=
  let file : Variant :=
    { self := 15, kind := 0, name := "Document", layout := [(endOfFileSlot, Layout.one)], isSourceFile := true }
  { self := 12, tokenKinds := ⟨[(.text "Word", 0), (.text "End", 1)]⟩
    nodeKinds := ⟨[(.text "Document", 0), (.text "Entry", 1)]⟩, variants := [file, entry], sourceFile := file
    endOfFileKind := 1 }

theorem accepted_drafted : Definition.ofValue drafted (.object 10) = .ok draft ∧
    drafted.addGrammar draft = .ok (ledger, drafted.addAll ledger.objects) := by
  have hdefine : Grammar.define drafted drafted.size draft = .ok ledger := by decide +kernel
  refine ⟨by decide +kernel, ?_⟩
  rw [addGrammar, hdefine]
  rfl

/-- All slots of an entry, three of them with nothing. -/
def listing : Members Value :=
  [("constructor", .null), ("word", .object 19), ("toString", .object 11), ("notes", .undefined)]

/-- Leaves one slot out. -/
def leaving (slot : Text) (name : Text) : Bool := name == slot

/-- A token, and records of all slots and of all but one, besides the grammar. -/
def supplied : Store :=
  drafted.addAll (ledger.objects ++
    [.token ⟨.ofNat 0, 0, 0, 1⟩, .ofMembers listing, .ofMembers (listing.without (leaving "notes"))])

theorem untouched_drafted : Store.empty.Untouched drafted := by
  refine untouched_addAll grounded_empty closed_empty fun o ho => ?_
  simp only [draftObjects, List.mem_cons, List.not_mem_nil, or_false] at ho
  rcases ho with rfl | rfl | rfl | rfl | rfl | rfl
  · exact Object.refers_list (by decide) (List.forall_mem_nil _)
  iterate 4 exact Object.refers_of_members (fun _ _ _ heq => by cases heq) (by decide)
  · exact Object.refers_list (List.forall_mem_nil _) (List.forall_mem_nil _)

theorem untouched_supplied : drafted.Untouched supplied := by
  refine untouched_addAll untouched_drafted.grounded untouched_drafted.closed fun o ho => ?_
  simp only [ledger, Grammar.objects, List.flatMap_cons, List.flatMap_nil, List.cons_append, List.nil_append,
    List.mem_cons, List.not_mem_nil, or_false] at ho
  rcases ho with rfl | rfl | rfl | rfl | rfl | rfl | rfl | rfl | rfl | rfl <;>
    exact Object.refers_of_members (fun _ _ _ heq => by cases heq) (by decide)

theorem bareRecord_supplied :
    supplied.BareRecord 20 listing ∧ supplied.BareRecord 21 (listing.without (leaving "notes")) ∧
      supplied.items? (.object 11) = some .empty := by
  refine ⟨⟨⟨false, ?_⟩, ?_⟩, ⟨⟨false, ?_⟩, ?_⟩, ?_⟩ <;> decide +kernel

theorem omissible_listing {slot : Text} (h : "word" ≠ slot) :
    supplied.Omissible entry.layout listing (leaving slot) where
  listed := by decide
  nothing := by
    obtain ⟨_, _, hempty⟩ := bareRecord_supplied
    simp only [listing, List.forall_mem_cons]
    refine ⟨fun _ => .inl rfl, fun hleaving => ?_, fun _ => .inr ⟨.empty, hempty, rfl⟩, fun _ => .inl rfl,
      List.forall_mem_nil _⟩
    exact absurd (beq_iff_eq.mp hleaving) h

theorem create_listing : ∃ id t, create entry (.ofValues listing) supplied = (.ok id, t) := by
  have h : (create entry (.ofValues listing) supplied).1 = .ok 25 := by decide +kernel
  exact ⟨_, _, Prod.ext h rfl⟩

/-- An entry without its notes is the entry with a list of none. -/
theorem create_omitting_notes : ∃ id t, create entry (.ofValues listing) supplied = (.ok id, t) ∧
    create entry (.ofValues (listing.without (leaving "notes"))) supplied = (.ok id, t) ∧
    t.Vacates entry.layout (leaving "notes") id := by
  obtain ⟨id, t, hcreate⟩ := create_listing
  have hs := untouched_supplied.grounded
  obtain ⟨hvalue, hadded⟩ := accepted_drafted
  obtain ⟨hall, hfew, _⟩ := bareRecord_supplied
  obtain ⟨hsame, _⟩ := create_omitting hvalue hadded (List.mem_cons_of_mem _ List.mem_cons_self) rfl
    hs untouched_supplied.closed (by decide) hall hfew (omissible_listing (by decide)) (hall.ofValue hs)
    (hfew.ofValue hs) hcreate
  exact ⟨id, t, hcreate, hsame (by decide)⟩

/-- Slots with common names cannot be left out, although there is nothing in them. -/
theorem not_create_omitting_common :
    Definition.ofValue drafted (.object 10) = .ok draft ∧
    drafted.addGrammar draft = .ok (ledger, drafted.addAll ledger.objects) ∧ entry ∈ ledger.variants ∧
    (∃ id t, create entry (.ofValues listing) supplied = (.ok id, t)) ∧
    ∀ slot ∈ (["constructor", "toString"] : List Text), supplied.Omissible entry.layout listing (leaving slot) ∧
      ∀ id t, create entry (.ofValues (listing.without (leaving slot))) supplied ≠ (.ok id, t) := by
  obtain ⟨hvalue, hadded⟩ := accepted_drafted
  refine ⟨hvalue, hadded, List.mem_cons_of_mem _ List.mem_cons_self, create_listing, ?_⟩
  have hfails : ∀ slot ∈ (["constructor", "toString"] : List Text),
      (create entry (.ofValues (listing.without (leaving slot))) supplied).1.toBool = false := by decide +kernel
  refine fun slot hslot => ⟨omissible_listing ?_, fun id t hcreate => ?_⟩
  · rintro rfl
    exact absurd hslot (by decide)
  · have hno := hfails slot hslot
    rw [hcreate] at hno
    cases hno

end Sample

end LosslessSyntax
