import LosslessSyntax.Proofs.Keeping

/-!
# Filling the slots of a new node

The slots of a new node are put one by one into a record that is made for it. Whatever the slots are, nothing else in
the store changes: `Store.makeSlots_spec` says what the store is like afterwards, whether that fails or not. New objects
are the record and the lists in it, all of them without links.

Some things can go wrong only if there is a slot with the name of the base. The record then extends what is given there:
later slots can be refused, and setting the stack text of an error through the record would change that error
(`Input.Harmless`). That slot itself is read as what the record extends, unless something on the way hides it
(`Input.Unshadowed`).
-/

namespace LosslessSyntax

/-- A given value that is no object beyond the first so many ones. -/
def SlotValue.Within (size : Nat) : SlotValue → Prop
  | .one v => v.Within size
  | .many vs => ∀ v ∈ vs, v.Within size

instance (size : Nat) : (v : SlotValue) → Decidable (v.Within size)
  | .one v => inferInstanceAs (Decidable (v.Within size))
  | .many vs => inferInstanceAs (Decidable (∀ v ∈ vs, v.Within size))

/-- The children in checked input. -/
def SlotValue.children : SlotValue → List Value
  | .one v => if v.isMissing then [] else [v]
  | .many vs => vs

theorem Members.ne_of_has {α : Type} {m : Members α} {name other : Text} (h : m.has name = false)
    (hother : other ∈ m.names) : other ≠ name := by
  rintro rfl
  obtain ⟨entry, hentry, hname⟩ := List.mem_map.mp hother
  rw [Members.has, List.any_eq_false] at h
  exact h entry hentry (by simp [hname])

theorem Members.exists_get? {α : Type} {m : Members α} {name : Text} (h : m.has name = true) :
    ∃ v, m.get? name = some v := by
  rwa [← isSome_get?, Option.isSome_iff_exists] at h

theorem undeclared_within {size : Nat} (hsize : 0 < size) (slot : Text) : (undeclared slot).Within size := by
  rw [undeclared]
  split
  · exact hsize
  · cases hv : Ground.record.members.get? slot with
    | none => trivial
    | some v =>
      have hall : ∀ entry ∈ Ground.record.members, entry.2.Within 0 := by decide
      exact (hall _ (Members.mem_of_get? hv)).mono (Nat.zero_le _)

/-- Given members are all that an input of members reads. -/
theorem Input.within_ofMembers {size : Nat} (hsize : 0 < size) {m : Members SlotValue}
    (h : ∀ entry ∈ m, entry.2.Within size) (slot : Text) : ((Input.ofMembers m).read slot).Within size := by
  show ((m.get? slot).getD _).Within size
  cases hv : m.get? slot with
  | none => exact undeclared_within hsize slot
  | some v => exact h _ (Members.mem_of_get? hv)

/-- A call that sets no member of an error: if there are slots with the name of the base and with that of the stack text,
what is given for the first neither is an error nor extends one. -/
def Input.Harmless (s : Store) (layout : Layout) (input : Input) : Prop :=
  layout.has baseName = true → layout.has "stack" = true → ∀ id, input.read baseName = .one (.object id) →
    ∀ holder ∈ id :: s.chain id, ∀ named hidden m, s.object? holder ≠ some (.error named hidden m)

theorem Input.harmless_of_plain {s : Store} {layout : Layout} (h : layout.has baseName = false) (input : Input) :
    input.Harmless s layout := by
  intro hbase
  rw [h] at hbase
  cases hbase

/-- A call after which a slot with the name of the base is read as what the record of slots extends: nothing that this
leads to has a member of that name, apart from the grounds. -/
def Input.Unshadowed (s : Store) (layout : Layout) (input : Input) : Prop :=
  layout.has baseName = true → ∀ id, input.read baseName = .one (.object id) →
    ∀ holder ∈ id :: s.chain id, Ground.ofId? holder = none → ∀ o, s.object? holder = some o → o.own? baseName = none

theorem Input.unshadowed_of_plain {s : Store} {layout : Layout} (h : layout.has baseName = false) (input : Input) :
    input.Unshadowed s layout := by
  intro hbase
  rw [h] at hbase
  cases hbase

/-! ## Building step by step -/

namespace Building

variable {α β : Type} {x : Building α} {f : α → Building β} {s t : Store}

/-- Gives an object the next number. -/
def add (o : Object) : Building ObjectId := modifyGet fun s => s.add o

/-- Takes over what is read from the store. -/
def read (work : Store → Attempt α) : Building α := fun s => (work s, s)

/-- Changes the store. -/
def update (work : Store → Store) : Building Unit := modify work

/-- Changes one object, unless that is not possible. -/
def change (work : Store → Attempt Store.Change) : Building Unit := fun s =>
  match work s with
  | .ok c => (.ok (), s.apply c)
  | .error failure => (.error failure, s)

/-- Forgets the objects that were made by work that fails. -/
def forgetting (work : Building α) : Building α := fun s =>
  match work s with
  | (.ok a, t) => (.ok a, t)
  | (.error failure, t) => (.error failure, if t.cells.take s.size = s.cells then s else t)

theorem bind_ok {a : α} (h : x s = (.ok a, t)) : (x >>= f) s = f a t := by
  simp only [bind, ExceptT.bind, ExceptT.mk, StateT.bind, h, ExceptT.bindCont]

theorem bind_error {failure : Failure} (h : x s = (.error failure, t)) : (x >>= f) s = (.error failure, t) := by
  simp only [bind, ExceptT.bind, ExceptT.mk, StateT.bind, h, ExceptT.bindCont]
  rfl

/-- A run of one piece of work after another succeeds only if both do. -/
theorem bind_eq_ok {b : β} (h : (x >>= f) s = (.ok b, t)) : ∃ a u, x s = (.ok a, u) ∧ f a u = (.ok b, t) := by
  rcases hx : x s with ⟨_ | a, u⟩
  · rw [bind_error hx] at h
    cases h
  · rw [bind_ok hx] at h
    exact ⟨a, u, rfl, h⟩

theorem forM_cons {a : α} {as : List α} {f : α → Building Unit} :
    (a :: as).forM f = (do f a; as.forM f) := rfl

end Building

namespace Store

variable {s t : Store}

theorem refuse_eq_error {α : Type} (cause : Malformation) (kind : Value) :
    (refuse cause kind : Attempt α) = .error (.ofTree (.malformed cause kind)) := rfl

theorem fillSlot_def (p : Plan) (input : Input) (record : ObjectId) (slot : Text) (arity : Value) :
    fillSlot p input record slot arity = (do
      let checked ← Building.read fun s => s.checkSlot p.kind slot arity (input.read slot)
      let value ← place checked
      Building.change fun s => Attempt.ofMisuse (s.assignment record slot value)) := rfl

theorem makeSlots_def (p : Plan) (input : Input) :
    makeSlots p input =
      match unknownSlot? p input with
      | some name => Building.read fun _ => refuse (.unknownSlot name) p.kind
      | none => (do
        let record ← Building.add (.ofMembers [])
        p.layout.forM fun (slot, arity) => fillSlot p input record slot arity
        Building.update fun s => s.modify record fun c => { c with object := sealRecord c.object }
        return record) := rfl

theorem attach_def (p : Plan) (n : Node) :
    attach p n = (do
      let children ← Building.read fun s => s.attachable p n.slots
      let id ← Building.add (.node n)
      children.forM fun child => Building.change fun s => s.link id child
      return id) := rfl

theorem create_def (v : Variant) (input : Input) :
    create v input =
      if v.isSourceFile then Building.read fun _ => refuse .sourceFileVariant (.text v.name)
      else Building.forgetting (do
        let slots ← makeSlots v.plan input
        attach v.plan { variant := v, slots }) := rfl

theorem addFileBy_def (p : Plan) (variant : Variant) (assigned : Members Value) (kind : Value) (source : Source)
    (input : Input) :
    addFileBy p variant assigned kind source input = Building.forgetting (do
      let slots ← makeSlots p input
      let endOfFile ← Building.read fun s =>
        match s.endOfFileToken? kind slots with
        | some id => return id
        | none => refuse .noEndOfFileToken p.kind
      attach p { variant, slots, file := some { source, endOfFile }, assigned }) := rfl

theorem recordRoots_def (root : ObjectId) (s : Store) :
    recordRoots root s = ((s.nodesOf root).2.elim (.ok ()) .error, s.recordRoot root (s.nodesOf root).1) := rfl

theorem createSourceFile_def (g : Grammar) (source : Source) (input : Input) :
    createSourceFile g source input = (do
      let root ← addFile g.sourceFile (.ofNat g.endOfFileKind) source input
      recordRoots root
      return root) := rfl

theorem addOtherFile_def (variant kind : Value) (source : Source) (input : Input) :
    addOtherFile variant kind source input = (do
      let p ← Building.read fun s => s.planFor variant input
      let own ← Building.read fun s => Attempt.ofMisuse (s.member "kind" variant)
      addFileBy p .blank [("variant", variant), ("kind", own)] kind source input) := rfl

/-! ## Checked input -/

/-- What passes the check of a slot: nothing, a single child as it was given, or children in a row. -/
theorem checkSlot_eq_ok {kind arity : Value} {slot : Text} {given checked : SlotValue}
    (h : s.checkSlot kind slot arity given = .ok checked) :
    checked = .one .null ∨
      (∃ v, checked = .one v ∧ given = .one v ∧ s.isElement v = true ∧ s.isList v = false) ∨
      ∃ vs, checked = .many vs ∧ ∀ v ∈ vs, s.isElement v = true := by
  have hentries : ∀ {vs : List Value}, s.checkEntries kind slot vs = .ok checked →
      ∃ vs, checked = .many vs ∧ ∀ v ∈ vs, s.isElement v = true := by
    intro vs h
    rw [checkEntries] at h
    split at h
    · rename_i hall
      cases h
      exact ⟨vs, rfl, fun v hv => List.all_eq_true.mp hall v hv⟩
    · cases h
  rw [checkSlot] at h
  split at h
  · refine .inr (.inr ?_)
    cases given with
    | many vs => exact hentries h
    | one v =>
      rw [checkMany] at h
      cases hitems : s.items? v with
      | none =>
        rw [hitems] at h
        simp only at h
        split at h
        · cases h
          exact ⟨[], rfl, nofun⟩
        · cases h
      | some items =>
        rw [hitems] at h
        simp only at h
        split at h
        · cases h
        · split at h
          · exact hentries h
          · cases h
  · cases given with
    | many vs => cases h
    | one v =>
      rw [checkOne] at h
      split at h
      · cases h
        exact .inl rfl
      · split at h
        · cases h
        · rename_i hlist
          split at h
          · rename_i helement
            cases h
            exact .inr (.inl ⟨v, rfl, rfl, helement, by simpa using hlist⟩)
          · cases h

/-- The children in checked input are nodes and tokens. -/
theorem isElement_of_checkSlot {kind arity : Value} {slot : Text} {given checked : SlotValue}
    (h : s.checkSlot kind slot arity given = .ok checked) : ∀ child ∈ checked.children, s.isElement child = true := by
  intro child hchild
  rcases checkSlot_eq_ok h with rfl | ⟨w, rfl, _, hw, _⟩ | ⟨ws, rfl, hws⟩
  · cases hchild
  · simp only [SlotValue.children] at hchild
    split at hchild
    · cases hchild
    · rw [List.mem_singleton.mp hchild]
      exact hw
  · exact hws child hchild

/-- A check of given values comes out the same in a later store. -/
theorem Grounded.checkSlot_keeps (hs : s.Grounded) (hc : s.Closed) (hk : s.Keeps t) {given : SlotValue}
    (hgiven : given.Within s.size) (kind : Value) (slot : Text) (arity : Value) :
    t.checkSlot kind slot arity given = s.checkSlot kind slot arity given := by
  have hentries : ∀ {vs : List Value}, (∀ v ∈ vs, v.Within s.size) →
      t.checkEntries kind slot vs = s.checkEntries kind slot vs := by
    intro vs hvs
    have hall : vs.all t.isElement = vs.all s.isElement := by
      refine Bool.eq_iff_iff.mpr ?_
      simp only [List.all_eq_true]
      exact forall₂_congr fun v hv => by rw [hs.isElement_keeps hk (hvs v hv)]
    rw [checkEntries, checkEntries, hall]
  cases given with
  | many vs => rw [checkSlot, checkSlot, checkMany, checkMany, hentries hgiven]; rfl
  | one v =>
    have hv : v.Within s.size := hgiven
    have hmany : t.checkMany kind slot (.one v) = s.checkMany kind slot (.one v) := by
      rw [checkMany, checkMany, hs.items?_keeps hk hv, hs.isIterable_keeps hk hv]
      cases hitems : s.items? v with
      | none => rfl
      | some items => simp only [hentries (hc.items? hitems)]
    have hone : t.checkOne kind slot (.one v) = s.checkOne kind slot (.one v) := by
      rw [checkOne, checkOne, Grounded.isList_keeps hk hv, hs.isElement_keeps hk hv]
    rw [checkSlot, checkSlot, hmany, hone]

/-! ## The record of slots -/

/-- The cell of a list in a slot. -/
def listCell (values : List Value) : Cell := .ofObject (.list (.ofList values) [] true)

/-- What stands in a record of slots for checked input: a single value itself, and for a row a list that was made after
the record. -/
def Placed (t : Store) (record : ObjectId) : SlotValue → Value → Prop
  | .one w, v => v = w
  | .many ws, v => ∃ id, v = .object id ∧ record < id ∧ t.cell? id = some (listCell ws)

theorem Placed.extends {u : Store} {record : ObjectId} {checked : SlotValue} {v : Value} (hk : t.Extends u)
    (h : t.Placed record checked v) : u.Placed record checked v := by
  cases checked with
  | one w => exact h
  | many ws =>
    obtain ⟨id, hid, hlt, hcell⟩ := h
    refine ⟨id, hid, hlt, ?_⟩
    rw [hk.cell (Nat.lt_of_not_le fun hge => ?_), hcell]
    rw [cell?_eq_none hge] at hcell
    cases hcell

/-- Checked input as it stands in a slot: a single value itself, and a list as it was made for a row. -/
def Stands (t : Store) : SlotValue → Value → Prop
  | .one w, v => v = w
  | .many ws, v => ∃ id, v = .object id ∧ t.object? id = some (.list (.ofList ws) [] true) ∧
    t.base? id = some Ground.list.id

theorem Placed.stands {record : ObjectId} {checked : SlotValue} {v : Value} (h : t.Placed record checked v) :
    t.Stands checked v := by
  cases checked with
  | one w => exact h
  | many ws =>
    obtain ⟨id, rfl, _, hcell⟩ := h
    exact ⟨id, rfl, by rw [object?, hcell]; rfl, by rw [base?, hcell]; rfl⟩

theorem Stands.keeps {u : Store} (hk : t.Keeps u) {checked : SlotValue} {v : Value} (hv : v.Within t.size)
    (h : t.Stands checked v) : u.Stands checked v := by
  cases checked with
  | one w => exact h
  | many ws =>
    obtain ⟨id, rfl, hobject, hbase⟩ := h
    exact ⟨id, rfl, (hk.object hv).trans hobject, (hk.base hv).trans hbase⟩

/-- A single child that is given for the slot with the name of the base. -/
structure Offers (s : Store) (input : Input) (b : ObjectId) : Prop where
  given : input.read baseName = .one (.object b)
  isElement : s.isElement (.object b) = true
  single : s.isList (.object b) = false

theorem Offers.lt_size {input : Input} {b : ObjectId} (h : s.Offers input b) : b < s.size := by
  obtain ⟨id, hid, hlt⟩ := isElement_object h.isElement
  cases hid
  exact hlt

/-- A store in which some slots of a new node have been put into the record made for it, which is the first new object.
All others are lists in that record. -/
structure Filling (s : Store) (p : Plan) (input : Input) (filled : List Text) (m : Members Value)
    (base : Option ObjectId) (isSealed : Bool) (t : Store) : Prop where
  old : s.Extends t
  record : t.cell? s.size = some { object := .record m isSealed, base }
  lists : ∀ {id}, s.size < id → id < t.size → ∃ ws, t.cell? id = some (listCell ws) ∧ ∀ w ∈ ws, s.isElement w = true
  own : ∀ {name v}, m.get? name = some v → ∃ arity checked, (name, arity) ∈ p.layout ∧
    s.checkSlot p.kind name arity (input.read name) = .ok checked ∧ t.Placed s.size checked v
  complete : ∀ slot ∈ filled, slot = baseName ∨ m.has slot = true
  extending : ∀ b : Nat, base = some b → b = Ground.record.id ∨ p.layout.has baseName = true ∧
    (s.size < b ∧ b < t.size ∨ s.Offers input b)
  based : baseName ∈ filled → m.has baseName = true ∨ base ≠ some Ground.record.id
  plain : p.layout.has baseName = false → base = some Ground.record.id

variable {p : Plan} {input : Input} {filled : List Text} {m : Members Value} {base : Option ObjectId} {isSealed : Bool}

namespace Filling

theorem lt_size (h : Filling s p input filled m base isSealed t) : s.size < t.size := by
  refine Nat.lt_of_not_le fun hge => ?_
  have hrecord := h.record
  rw [cell?_eq_none hge] at hrecord
  cases hrecord

theorem base?_list (h : Filling s p input filled m base isSealed t) {id : ObjectId} (hid : s.size < id)
    (hlt : id < t.size) : t.base? id = some Ground.list.id := by
  obtain ⟨ws, hcell, _⟩ := h.lists hid hlt
  rw [base?, hcell]
  rfl

theorem base?_record (h : Filling s p input filled m base isSealed t) : t.base? s.size = base := by
  rw [base?, h.record]
  rfl

/-- Whatever the record extends, its chain ends: it leads to an old object or to a list. -/
theorem grounded (hs : s.Grounded) (h : Filling s p input filled m base isSealed t) : t.Grounded := by
  have hlt := h.lt_size
  have hold : ∀ {id}, id < s.size → t.Ends s.size id := fun hid => (hs.ends hid).keeps h.old.keeps
  have hlist : ∀ {id}, s.size < id → id < t.size → t.Ends (s.size + 1) id := by
    intro id hid hidt
    refine ⟨hidt, fun b hb => ?_⟩
    rw [h.base?_list hid hidt] at hb
    cases hb
    exact hold (hs.ground_lt .list)
  refine hs.of_keeps h.old.keeps fun {id} hge hidt => ?_
  rcases Nat.lt_or_eq_of_le hge with hgt | rfl
  · exact (hlist hgt hidt).mono (by omega)
  · obtain ⟨n, hn⟩ := Nat.exists_eq_succ_of_ne_zero (by omega : t.size ≠ 0)
    rw [hn]
    refine ⟨hidt, fun b hb => ?_⟩
    rw [h.base?_record] at hb
    rcases h.extending b hb with rfl | ⟨_, ⟨hgt, hbt⟩ | hoffers⟩
    · exact (hold (hs.ground_lt .record)).mono (by omega)
    · exact (hlist hgt hbt).mono (by omega)
    · exact (hold hoffers.lt_size).mono (by omega)

theorem within (h : Filling s p input filled m base isSealed t) {name : Text} {v : Value} (hv : m.get? name = some v) :
    v.Within t.size := by
  obtain ⟨arity, checked, _, hcheck, hplaced⟩ := h.own hv
  rcases checkSlot_eq_ok hcheck with rfl | ⟨w, rfl, _, hw, _⟩ | ⟨ws, rfl, hws⟩
  · cases hplaced
    trivial
  · cases hplaced
    obtain ⟨id, rfl, hid⟩ := isElement_object hw
    exact Nat.lt_of_lt_of_le hid h.old.size_le
  · obtain ⟨id, rfl, _, hcell⟩ := hplaced
    refine Nat.lt_of_not_le fun hge => ?_
    rw [cell?_eq_none hge] at hcell
    cases hcell

/-- The new objects refer to old ones and to each other. -/
theorem closed (hc : s.Closed) (h : Filling s p input filled m base isSealed t) : t.Closed := by
  refine ⟨fun {id o} ho => ?_⟩
  have hidt := lt_size_of_object? ho
  rcases Nat.lt_trichotomy id s.size with hlt | rfl | hgt
  · rw [h.old.keeps.object hlt] at ho
    exact (hc.refers ho).mono h.old.size_le
  · rw [object?, h.record] at ho
    cases ho
    exact ⟨fun hown => h.within (by simpa [Object.own?, Object.hidden, Object.listed, Members.get?] using hown),
      fun hitems => by cases hitems⟩
  · obtain ⟨ws, hcell, hws⟩ := h.lists hgt hidt
    have hall : ∀ w ∈ ws, w.Within t.size := fun w hw => by
      obtain ⟨id, rfl, hid⟩ := isElement_object (hws w hw)
      exact Nat.lt_of_lt_of_le hid h.old.size_le
    obtain rfl : o = .list (.ofList ws) [] true := by
      rw [object?, hcell] at ho
      exact (Option.some.inj ho).symm
    exact Object.refers_list (by rwa [Sequence.values_ofList]) (List.forall_mem_nil _)

/-! ### Placing a value -/

theorem add_list (h : Filling s p input filled m base isSealed t) {ws : List Value}
    (hws : ∀ w ∈ ws, s.isElement w = true) :
    Filling s p input filled m base isSealed (t.add (.list (.ofList ws) [] true)).2 where
  old := h.old.add _
  record := by rw [cell?_add, if_neg (Nat.ne_of_lt h.lt_size), h.record]
  lists {id} hid hidt := by
    rw [size_add] at hidt
    rw [cell?_add]
    split
    · exact ⟨ws, rfl, hws⟩
    · exact h.lists hid (by omega)
  own hv := by
    obtain ⟨arity, checked, hmem, hcheck, hplaced⟩ := h.own hv
    exact ⟨arity, checked, hmem, hcheck, hplaced.extends ((Extends.refl t).add _)⟩
  complete := h.complete
  extending b hb := by
    rw [size_add]
    refine (h.extending b hb).imp_right (And.imp_right (Or.imp_left fun hlt => ?_))
    omega
  based := h.based
  plain := h.plain

theorem place (h : Filling s p input filled m base isSealed t) {slot : Text} {arity : Value} {checked : SlotValue}
    (hcheck : s.checkSlot p.kind slot arity (input.read slot) = .ok checked) :
    ∃ v u, Store.place checked t = (.ok v, u) ∧ Filling s p input filled m base isSealed u ∧
      u.Placed s.size checked v := by
  have hone : ∀ v, ∃ w u, Store.place (.one v) t = (.ok w, u) ∧ Filling s p input filled m base isSealed u ∧
      u.Placed s.size (.one v) w := fun v => ⟨v, t, rfl, h, rfl⟩
  rcases checkSlot_eq_ok hcheck with rfl | ⟨w, rfl, _⟩ | ⟨ws, rfl, hws⟩
  · exact hone .null
  · exact hone w
  · refine ⟨.object t.size, _, rfl, h.add_list hws, t.size, rfl, h.lt_size, ?_⟩
    show (t.add _).2.cell? t.size = _
    rw [cell?_add, if_pos rfl]
    rfl

/-! ### Setting a slot -/

theorem object?_record (h : Filling s p input filled m base isSealed t) :
    t.object? s.size = some (.record m isSealed) := by
  rw [object?, h.record]
  rfl

theorem seek_record (h : Filling s p input filled m base isSealed t) (name : Text) :
    t.seek s.size name = match m.get? name with
      | some v => some (s.size, v)
      | none => base.bind (t.seekFrom name t.size) := by
  rw [seek, seekFrom_succ, h.object?_record, h.base?_record]
  rfl

/-- Where the record does not have a slot yet, no error does. -/
theorem not_error (hs : s.Grounded) (hh : input.Harmless s p.layout) (h : Filling s p input filled m base isSealed t)
    (hstack : p.layout.has "stack" = true) {b holder : ObjectId} {value : Value} (hb : base = some b)
    (hseek : t.seekFrom "stack" t.size b = some (holder, value)) (named : Option Text) (hidden members : Members Value) :
    t.object? holder ≠ some (.error named hidden members) := by
  have ht := h.grounded hs
  have hground : ∀ {g : Ground} {steps : Nat}, t.seekFrom "stack" steps g.id = some (holder, value) →
      t.object? holder ≠ some (.error named hidden members) := by
    intro g steps hg
    obtain ⟨g', _, ho⟩ := ht.seekFrom_ground hg
    rw [ho]
    intro heq
    cases heq
  rcases h.extending b hb with rfl | ⟨hbase, ⟨hgt, hbt⟩ | hoffers⟩
  · exact hground hseek
  · obtain ⟨ws, hcell, _⟩ := h.lists hgt hbt
    obtain ⟨n, hn⟩ := Nat.exists_eq_succ_of_ne_zero (by omega : t.size ≠ 0)
    have ho : t.object? b = some (.list (.ofList ws) [] true) := by rw [object?, hcell]; rfl
    rw [hn, Nat.succ_eq_add_one, seekFrom_succ, ho, h.base?_list hgt hbt, Option.bind_some] at hseek
    cases hown : (Object.list (.ofList ws) [] true).own? "stack" with
    | some v =>
      rw [hown] at hseek
      cases hseek
      rw [ho]
      intro heq
      cases heq
    | none =>
      rw [hown] at hseek
      exact hground hseek
  · rw [seekFrom_keeps h.old.keeps _ (hs.ends hoffers.lt_size) (Nat.le_refl _) h.old.size_le] at hseek
    obtain ⟨hmem, o, ho, _⟩ := mem_of_seekFrom hseek
    rw [h.old.keeps.object (lt_size_of_object? ho)]
    exact hh hbase hstack b hoffers.given holder hmem named hidden members

/-- A slot is set in the record itself, unless there is a slot with the name of the base. -/
theorem target (hs : s.Grounded) (hh : input.Harmless s p.layout) (h : Filling s p input filled m base false t)
    {slot : Text} (hslot : p.layout.has slot = true) :
    t.target s.size slot = .member s.size ∨ p.layout.has baseName = true ∧
      (t.target s.size slot = .nothing ∨ t.target s.size slot = .base ∧ slot = baseName) := by
  have ht := h.grounded hs
  rw [Store.target, h.seek_record]
  cases hown : m.get? slot with
  | some v => exact .inl (by simp only [h.object?_record]; rfl)
  | none =>
    cases hb : base with
    | none => exact .inl rfl
    | some b =>
      simp only [Option.bind_some]
      cases hseek : t.seekFrom slot t.size b with
      | none => exact .inl rfl
      | some found =>
        obtain ⟨holder, value⟩ := found
        obtain ⟨_, o, ho, _⟩ := mem_of_seekFrom hseek
        simp only [ho]
        cases hbase : p.layout.has baseName with
        | false =>
          have hrecord := h.plain hbase
          rw [hb] at hrecord
          cases hrecord
          rw [ht.seekFrom_record hseek, ht.object .record] at ho
          cases ho
          exact .inl (if_neg fun heq => by rw [heq, hbase] at hslot; cases hslot)
        | true =>
          cases o with
          | ground g =>
            cases g with
            | record =>
              by_cases hslotBase : slot = baseName
              · exact .inr ⟨rfl, .inr ⟨if_pos hslotBase, hslotBase⟩⟩
              · exact .inl (if_neg hslotBase)
            | node =>
              by_cases hparent : slot = "parent"
              · exact .inr ⟨rfl, .inl (if_pos hparent)⟩
              · exact .inl (if_neg hparent)
            | list | error | namedError | file => exact .inl rfl
          | error named hidden members =>
            refine .inl (congrArg Target.member (if_neg fun hstack => ?_))
            subst hstack
            exact h.not_error hs hh hslot hb hseek named hidden members ho
          | record m' isSealed => cases isSealed with
            | false => exact .inl rfl
            | true => exact .inr ⟨rfl, .inl rfl⟩
          | list items m' isSealed => cases isSealed with
            | false => exact .inl rfl
            | true => exact .inr ⟨rfl, .inl rfl⟩
          | node | logger => exact .inl rfl
          | token | variant | registry | grammar => exact .inr ⟨rfl, .inl rfl⟩

/-- Only the cell of the record changes. -/
theorem modify (h : Filling s p input filled m base isSealed t) {filled' : List Text} {m' : Members Value}
    {base' : Option ObjectId} {isSealed' : Bool} {change : Cell → Cell}
    (hchange : change { object := .record m isSealed, base } = { object := .record m' isSealed', base := base' })
    (hown : ∀ {name v}, m'.get? name = some v → ∃ arity checked, (name, arity) ∈ p.layout ∧
      s.checkSlot p.kind name arity (input.read name) = .ok checked ∧ t.Placed s.size checked v)
    (hcomplete : ∀ slot ∈ filled', slot = baseName ∨ m'.has slot = true)
    (hextending : ∀ b : Nat, base' = some b → b = Ground.record.id ∨ p.layout.has baseName = true ∧
      (s.size < b ∧ b < t.size ∨ s.Offers input b))
    (hbased : baseName ∈ filled' → m'.has baseName = true ∨ base' ≠ some Ground.record.id)
    (hplain : p.layout.has baseName = false → base' = some Ground.record.id) :
    Filling s p input filled' m' base' isSealed' (t.modify s.size change) where
  old := h.old.modify (Nat.le_refl _) change
  record := by rw [cell?_modify, if_pos rfl, h.record, Option.map_some, hchange]
  lists {id} hid hidt := by
    rw [size_modify] at hidt
    rw [cell?_modify, if_neg (Nat.ne_of_lt hid)]
    exact h.lists hid hidt
  own hv := by
    obtain ⟨arity, checked, hmem, hcheck, hplaced⟩ := hown hv
    refine ⟨arity, checked, hmem, hcheck, ?_⟩
    cases checked with
    | one w => exact hplaced
    | many ws =>
      obtain ⟨id, hid, hlt, hcell⟩ := hplaced
      exact ⟨id, hid, hlt, by rw [cell?_modify, if_neg (Nat.ne_of_lt hlt), hcell]⟩
  complete := hcomplete
  extending b hb := by rw [size_modify]; exact hextending b hb
  based := hbased
  plain := hplain

theorem set (h : Filling s p input filled m base false t) {slot : Text} {arity v : Value} {checked : SlotValue}
    (hmem : (slot, arity) ∈ p.layout) (hcheck : s.checkSlot p.kind slot arity (input.read slot) = .ok checked)
    (hplaced : t.Placed s.size checked v) :
    Filling s p input (slot :: filled) (m.set slot v) base false
      (t.modify s.size fun c => { c with object := .record (m.set slot v) false }) := by
  have hset : ∀ {name : Text}, name = slot ∨ m.has name = true → (m.set slot v).has name = true := by
    intro name hname
    rw [← Members.isSome_get?, Members.get?_set]
    split
    · rfl
    · rename_i hne
      rw [Members.isSome_get?, hname.resolve_left hne]
  refine h.modify rfl (fun {name w} hw => ?_) (fun name hname => ?_) h.extending (fun hname => ?_) h.plain
  · rw [Members.get?_set] at hw
    split at hw
    · rename_i heq
      cases hw
      exact ⟨arity, checked, heq ▸ hmem, heq ▸ hcheck, hplaced⟩
    · exact h.own hw
  · rcases List.mem_cons.mp hname with rfl | hname
    · exact .inr (hset (.inl rfl))
    · exact (h.complete name hname).imp_right fun hhas => hset (.inr hhas)
  · rcases List.mem_cons.mp hname with heq | hname
    · exact .inl (hset (.inl heq))
    · exact (h.based hname).imp_left fun hhas => hset (.inr hhas)

theorem rebase (h : Filling s p input filled m base false t) {base' : Option ObjectId}
    (hbase : p.layout.has baseName = true)
    (hextending : ∀ b : Nat, base' = some b → s.size < b ∧ b < t.size ∨ s.Offers input b)
    (hne : base' ≠ some Ground.record.id) :
    Filling s p input (baseName :: filled) m base' false (t.modify s.size fun c => { c with base := base' }) := by
  refine h.modify rfl h.own (fun name hname => ?_) (fun b hb => .inr ⟨hbase, hextending b hb⟩) (fun _ => .inr hne)
    fun hplain => ?_
  · exact (List.mem_cons.mp hname).elim .inl (h.complete name)
  · rw [hbase] at hplain
    cases hplain

/-- The record comes to extend what is given for the slot with the name of the base, or stays as it is. -/
theorem setBase (hs : s.Grounded) (h : Filling s p input filled m base false t) {arity v : Value} {checked : SlotValue}
    (hbase : p.layout.has baseName = true)
    (hcheck : s.checkSlot p.kind baseName arity (input.read baseName) = .ok checked)
    (hplaced : t.Placed s.size checked v) {c : Change} (hc : t.setBase s.size v = .ok c) :
    ∃ base', Filling s p input (baseName :: filled) m base' false (t.apply c) := by
  have hnew : ∃ base', (v = .null ∧ base' = none ∨ ∃ b, v = .object b ∧ base' = some b) ∧ ∀ b : Nat, base' = some b →
      s.size < b ∧ b < t.size ∨ s.Offers input b := by
    rcases checkSlot_eq_ok hcheck with rfl | ⟨w, rfl, hgiven, hw, hsingle⟩ | ⟨ws, rfl, _⟩
    · exact ⟨none, .inl ⟨hplaced, rfl⟩, nofun⟩
    · obtain ⟨b, rfl, hb⟩ := isElement_object hw
      refine ⟨some b, .inr ⟨b, hplaced, rfl⟩, fun b' hb' => .inr ?_⟩
      cases hb'
      exact ⟨hgiven, hw, hsingle⟩
    · obtain ⟨b, hv, hb, hcell⟩ := hplaced
      refine ⟨some b, .inr ⟨b, hv, rfl⟩, fun b' hb' => .inl ?_⟩
      cases hb'
      refine ⟨hb, Nat.lt_of_not_le fun hge => ?_⟩
      rw [cell?_eq_none hge] at hcell
      cases hcell
  obtain ⟨base', hv, hextending⟩ := hnew
  have hne : base' ≠ some Ground.record.id := by
    intro heq
    rcases hextending _ heq with ⟨hgt, _⟩ | hoffers
    · exact absurd (hs.ground_lt .record) (Nat.not_lt_of_gt hgt)
    · have helement := hoffers.isElement
      rw [hs.isElement_record] at helement
      cases helement
  have hset : t.setBase s.size v =
      if base = base' then .ok ⟨s.size, fun c => c⟩
      else if base'.any fun b => b = s.size || t.leadsTo b s.size then .error .isSealed
      else .ok ⟨s.size, fun c => { c with base := base' }⟩ := by
    rcases hv with ⟨rfl, rfl⟩ | ⟨b, rfl, rfl⟩ <;> simp only [Store.setBase, h.record] <;> rfl
  rw [hset] at hc
  split at hc
  · rename_i heq
    cases hc
    exact ⟨base, h.modify rfl h.own (fun name hname => (List.mem_cons.mp hname).elim .inl (h.complete name)) h.extending
      (fun _ => .inr (heq ▸ hne)) h.plain⟩
  · split at hc
    · cases hc
    · cases hc
      exact ⟨base', h.rebase hbase hextending hne⟩

/-- Setting a slot succeeds, unless there is a slot with the name of the base. -/
theorem assignment (hs : s.Grounded) (hh : input.Harmless s p.layout) (h : Filling s p input filled m base false t)
    {slot : Text} {arity v : Value} {checked : SlotValue} (hmem : (slot, arity) ∈ p.layout)
    (hcheck : s.checkSlot p.kind slot arity (input.read slot) = .ok checked) (hplaced : t.Placed s.size checked v) :
    (∃ c m' base', t.assignment s.size slot v = .ok c ∧
        Filling s p input (slot :: filled) m' base' false (t.apply c)) ∨
      p.layout.has baseName = true ∧ ∃ misuse, t.assignment s.size slot v = .error misuse := by
  have hslot : p.layout.has slot = true := List.any_eq_true.mpr ⟨_, hmem, beq_self_eq_true slot⟩
  rw [Store.assignment]
  rcases h.target hs hh hslot with hmember | ⟨hbase, hnothing | ⟨htarget, rfl⟩⟩
  · rw [hmember]
    simp only [h.object?_record]
    exact .inl ⟨_, _, _, rfl, h.set hmem hcheck hplaced⟩
  · rw [hnothing]
    exact .inr ⟨hbase, _, rfl⟩
  · rw [htarget]
    simp only
    cases hc : t.setBase s.size v with
    | error misuse => exact .inr ⟨hbase, misuse, rfl⟩
    | ok c =>
      obtain ⟨base', hfilling⟩ := h.setBase hs hbase hcheck hplaced hc
      exact .inl ⟨c, m, base', rfl, hfilling⟩

/-- One slot more is filled, or its value is refused, or there is a slot with the name of the base. -/
theorem fillSlot (hs : s.Grounded) (hc : s.Closed) (hinput : ∀ slot, (input.read slot).Within s.size)
    (hh : input.Harmless s p.layout) (h : Filling s p input filled m base false t) {slot : Text} {arity : Value}
    (hmem : (slot, arity) ∈ p.layout) :
    (∃ m' base' u, Store.fillSlot p input s.size slot arity t = (.ok (), u) ∧
        Filling s p input (slot :: filled) m' base' false u) ∨
      ∃ failure u, Store.fillSlot p input s.size slot arity t = (.error failure, u) ∧
        Filling s p input filled m base false u ∧ (p.layout.has baseName = true ∨
          s.checkSlot p.kind slot arity (input.read slot) = .error failure) := by
  have hread : Building.read (fun u => u.checkSlot p.kind slot arity (input.read slot)) t =
      (s.checkSlot p.kind slot arity (input.read slot), t) := by
    rw [Building.read, hs.checkSlot_keeps hc h.old.keeps (hinput slot)]
  rw [fillSlot_def]
  cases hcheck : s.checkSlot p.kind slot arity (input.read slot) with
  | error failure =>
    rw [hcheck] at hread
    exact .inr ⟨failure, t, Building.bind_error hread, h, .inr rfl⟩
  | ok checked =>
    rw [hcheck] at hread
    obtain ⟨v, u, hplace, hu, hplaced⟩ := h.place hcheck
    rw [Building.bind_ok hread, Building.bind_ok hplace]
    rcases hu.assignment hs hh hmem hcheck hplaced with ⟨c, m', base', hassign, hfilling⟩ | ⟨hbase, misuse, hassign⟩
    · exact .inl ⟨m', base', u.apply c, by rw [Building.change, hassign]; rfl, hfilling⟩
    · exact .inr ⟨.misuse misuse, u, by rw [Building.change, hassign]; rfl, hu, .inl hbase⟩

/-- All slots are filled, or the value for one is refused, or there is a slot with the name of the base. The induction is
on the slots that are left. -/
theorem fillSlots (hs : s.Grounded) (hc : s.Closed) (hinput : ∀ slot, (input.read slot).Within s.size)
    (hh : input.Harmless s p.layout) (h : Filling s p input filled m base false t) {slots : Layout}
    (hslots : ∀ entry ∈ slots, entry ∈ p.layout) :
    (∃ m' base' u, slots.forM (fun entry => Store.fillSlot p input s.size entry.1 entry.2) t = (.ok (), u) ∧
        Filling s p input (slots.names.reverse ++ filled) m' base' false u) ∨
      ∃ failure filled' m' base' u,
        slots.forM (fun entry => Store.fillSlot p input s.size entry.1 entry.2) t = (.error failure, u) ∧
        Filling s p input filled' m' base' false u ∧ (p.layout.has baseName = true ∨
          ∃ entry ∈ slots, s.checkSlot p.kind entry.1 entry.2 (input.read entry.1) = .error failure) := by
  induction slots generalizing filled m base t with
  | nil => exact .inl ⟨m, base, t, rfl, h⟩
  | cons entry slots ih =>
    rw [Building.forM_cons]
    rcases h.fillSlot hs hc hinput hh (hslots entry List.mem_cons_self) with
      ⟨m', base', u, hfill, hu⟩ | ⟨failure, u, hfill, hu, hcause⟩
    · rw [Building.bind_ok hfill]
      rcases ih hu fun entry hentry => hslots entry (List.mem_cons_of_mem _ hentry) with
        ⟨m'', base'', w, hrest, hw⟩ | ⟨failure, filled', m'', base'', w, hrest, hw, hcause⟩
      · refine .inl ⟨m'', base'', w, hrest, ?_⟩
        rw [Members.names, List.map_cons, List.reverse_cons, List.append_assoc]
        exact hw
      · refine .inr ⟨failure, filled', m'', base'', w, hrest, hw, hcause.imp_right ?_⟩
        rintro ⟨entry', hentry', hcheck⟩
        exact ⟨entry', List.mem_cons_of_mem _ hentry', hcheck⟩
    · rw [Building.bind_error hfill]
      exact .inr ⟨failure, filled, m, base, u, rfl, hu,
        hcause.imp_right fun hcheck => ⟨entry, List.mem_cons_self, hcheck⟩⟩

end Filling

/-! ## Reading the record -/

namespace Filling

theorem lookup_own (hs : s.Grounded) (h : Filling s p input filled m base isSealed t) {slot : Text} {v : Value}
    (hv : m.get? slot = some v) : t.lookup s.size slot = v := by
  have hground : Ground.ofId? s.size = none := by
    have hsize := hs.ground_lt .file
    simp only [Ground.ofId?, Ground.all]
    exact List.getElem?_eq_none hsize
  rw [lookup, h.seek_record, hv]
  simp only [hground]

theorem iterated_list (hs : s.Grounded) (h : Filling s p input filled m base isSealed t) {id : ObjectId}
    {ws : List Value} (hid : s.size < id) (hcell : t.cell? id = some (listCell ws)) :
    t.iterated (.object id) = .ok (.ofList ws) := by
  have hlt : id < t.size := Nat.lt_of_not_le fun hge => by rw [cell?_eq_none hge] at hcell; cases hcell
  have hitems : t.items? (.object id) = some (.ofList ws) := by
    rw [items?, hcell]
    rfl
  have hiterable : t.isIterable (.object id) = true := by
    simp only [isIterable, Value.object?, Option.any_some, (h.grounded hs).isA_of_base (h.base?_list hid hlt)]
    simp
  rw [iterated, hitems]
  simp only [hiterable, if_true]

theorem iterated_single (hs : s.Grounded) (h : Filling s p input filled m base isSealed t) {id : ObjectId}
    (hid : id < s.size) (hsingle : s.isList (.object id) = false) :
    t.iterated (.object id) = .ok (.ofList [.object id]) := by
  have hitems : t.items? (.object id) = none := by
    rw [hs.items?_keeps h.old.keeps (v := .object id) hid, ← Option.isNone_iff_eq_none, ← Option.not_isSome,
      isSome_items?, hsingle]
    rfl
  rw [iterated, hitems]
  rfl

/-- What is met in a slot that the record has itself is what was checked. -/
theorem iterated_own (hs : s.Grounded) (h : Filling s p input filled m base isSealed t) {slot : Text} {v : Value}
    (hv : m.get? slot = some v) : ∃ arity checked, (slot, arity) ∈ p.layout ∧
      s.checkSlot p.kind slot arity (input.read slot) = .ok checked ∧ t.iterated v = .ok (.ofList checked.children) ∧
      t.Stands checked v := by
  obtain ⟨arity, checked, hmem, hcheck, hplaced⟩ := h.own hv
  refine ⟨arity, checked, hmem, hcheck, ?_, hplaced.stands⟩
  rcases checkSlot_eq_ok hcheck with rfl | ⟨w, rfl, _, helement, hlist⟩ | ⟨ws, rfl, _⟩
  · cases hplaced
    rfl
  · cases hplaced
    obtain ⟨id, rfl, hid⟩ := isElement_object helement
    exact h.iterated_single hs hid hlist
  · obtain ⟨id, rfl, hgt, hcell⟩ := hplaced
    exact h.iterated_list hs hgt hcell

end Filling

/-- A member with the name of the base that the record does not have itself is found in a ground. -/
theorem Filling.isGround_of_seekFrom (hs : s.Grounded) (hu : input.Unshadowed s p.layout)
    (h : Filling s p input filled m base isSealed t) {b holder : ObjectId} {value : Value} (hb : base = some b)
    (hne : b ≠ Ground.record.id) (hseek : t.seekFrom baseName t.size b = some (holder, value)) :
    (Ground.ofId? holder).isSome = true := by
  rcases (h.extending b hb).resolve_left hne with ⟨hbase, ⟨hgt, hbt⟩ | hoffers⟩
  · obtain ⟨ws, hcell, _⟩ := h.lists hgt hbt
    obtain ⟨n, hn⟩ := Nat.exists_eq_succ_of_ne_zero (by omega : t.size ≠ 0)
    have ho : t.object? b = some (.list (.ofList ws) [] true) := by rw [object?, hcell]; rfl
    have hown : (Object.list (.ofList ws) [] true).own? baseName = none := rfl
    rw [hn, Nat.succ_eq_add_one, seekFrom_succ, ho, h.base?_list hgt hbt, Option.bind_some, hown] at hseek
    obtain ⟨g, rfl, _⟩ := (h.grounded hs).seekFrom_ground (g := .list) hseek
    cases g <;> rfl
  · rw [seekFrom_keeps h.old.keeps _ (hs.ends hoffers.lt_size) (Nat.le_refl _) h.old.size_le] at hseek
    obtain ⟨hmem, o, ho, hown⟩ := mem_of_seekFrom hseek
    cases hg : Ground.ofId? holder with
    | some g => rfl
    | none =>
      rw [hu hbase b hoffers.given holder hmem hg o ho] at hown
      cases hown

/-- Nothing but grounds hides what the record extends, so that the slot with the name of the base is read as that, or as
nothing where its chain leads to no ground. -/
theorem Filling.lookup_base (hs : s.Grounded) (hu : input.Unshadowed s p.layout)
    (h : Filling s p input filled m base isSealed t) (hown : m.get? baseName = none) {b : ObjectId} (hb : base = some b)
    (hne : b ≠ Ground.record.id) : t.lookup s.size baseName = .undefined ∨ t.lookup s.size baseName = .object b := by
  have ht := h.grounded hs
  rw [lookup, h.seek_record, hown, hb]
  simp only [Option.bind_some]
  cases hseek : t.seekFrom baseName t.size b with
  | none => exact .inl rfl
  | some found =>
    obtain ⟨holder, value⟩ := found
    obtain ⟨_, o, ho, hvalue⟩ := mem_of_seekFrom hseek
    have hground : (Ground.ofId? holder).isSome = true := h.isGround_of_seekFrom hs hu hb hne hseek
    obtain ⟨g, hg⟩ := Option.isSome_iff_exists.mp hground
    rw [Ground.eq_id_of_ofId? hg, ht.object g] at ho
    cases ho
    have hrecord : g = .record := by cases g <;> first | rfl | cases hvalue
    subst hrecord
    simp only [hg, groundMember, h.base?_record, hb]
    exact .inr rfl

/-- What is met in the slot with the name of the base is nothing but nodes and tokens that were there before. -/
theorem Filling.iterated_base (hs : s.Grounded) (hu : input.Unshadowed s p.layout)
    (h : Filling s p input filled m base isSealed t) (hfilled : baseName ∈ filled) :
    ∃ ws, t.iterated (t.lookup s.size baseName) = .ok (.ofList ws) ∧ ∀ w ∈ ws, s.isElement w = true := by
  have hmissing : t.iterated .undefined = .ok (.ofList []) := rfl
  cases hown : m.get? baseName with
  | some v =>
    obtain ⟨arity, checked, _, hcheck, hiterated, _⟩ := h.iterated_own hs hown
    rw [h.lookup_own hs hown]
    exact ⟨checked.children, hiterated, isElement_of_checkSlot hcheck⟩
  | none =>
    cases hb : base with
    | none =>
      have hlookup : t.lookup s.size baseName = .undefined := by rw [lookup, h.seek_record, hown, hb]; rfl
      exact ⟨[], by rw [hlookup, hmissing], List.forall_mem_nil _⟩
    | some b =>
      have hne : b ≠ Ground.record.id := by
        rintro rfl
        rcases h.based hfilled with hhas | hne
        · rw [← Members.isSome_get?, hown] at hhas
          cases hhas
        · exact hne hb
      rcases h.lookup_base hs hu hown hb hne with hlookup | hlookup
      · exact ⟨[], by rw [hlookup, hmissing], List.forall_mem_nil _⟩
      · rw [hlookup]
        rcases (h.extending b hb).resolve_left hne with ⟨_, ⟨hgt, hbt⟩ | hoffers⟩
        · obtain ⟨ws, hcell, hws⟩ := h.lists hgt hbt
          exact ⟨ws, h.iterated_list hs hgt hcell, hws⟩
        · refine ⟨[.object b], h.iterated_single hs hoffers.lt_size hoffers.single, fun w hw => ?_⟩
          rw [List.mem_singleton.mp hw]
          exact hoffers.isElement

/-! ## New objects -/

/-- A store with new objects, none of which has a link. -/
structure Fresh (s t : Store) : Prop where
  old : s.Extends t
  grounded : t.Grounded
  closed : t.Closed
  unlinked : ∀ {id c}, s.size ≤ id → t.cell? id = some c → c.parent = none ∧ c.root = none ∧ c.owned = false

theorem Fresh.refl (hs : s.Grounded) (hc : s.Closed) : s.Fresh s :=
  ⟨.refl s, hs, hc, fun hge hcell => by rw [cell?_eq_none hge] at hcell; cases hcell⟩

theorem Filling.fresh (hs : s.Grounded) (hc : s.Closed) (h : Filling s p input filled m base isSealed t) :
    s.Fresh t where
  old := h.old
  grounded := h.grounded hs
  closed := h.closed hc
  unlinked {id c} hge hcell := by
    rcases Nat.lt_or_eq_of_le hge with hgt | rfl
    · have hidt : id < t.size := Nat.lt_of_not_le fun hle => by rw [cell?_eq_none hle] at hcell; cases hcell
      obtain ⟨ws, hlist, _⟩ := h.lists hgt hidt
      rw [hlist] at hcell
      cases hcell
      exact ⟨rfl, rfl, rfl⟩
    · rw [h.record] at hcell
      cases hcell
      exact ⟨rfl, rfl, rfl⟩

/-- The record that is made for the slots has none of them. -/
theorem filling_add (s : Store) (p : Plan) (input : Input) :
    Filling s p input [] [] (some Ground.record.id) false (s.add (.ofMembers [])).2 where
  old := (Extends.refl s).add _
  record := by rw [cell?_add, if_pos rfl]; rfl
  lists {id} hid hidt := by rw [size_add] at hidt; omega
  own hv := by cases hv
  complete := List.forall_mem_nil _
  extending b hb := .inl (Option.some.inj hb).symm
  based hmem := by cases hmem
  plain _ := rfl

/-- What making the record of slots comes to. It fails only for an unknown slot or a refused value, as long as there is no
slot with the name of the base. -/
theorem makeSlots_spec (hs : s.Grounded) (hc : s.Closed) (hinput : ∀ slot, (input.read slot).Within s.size)
    (hh : input.Harmless s p.layout) :
    (∃ m base t, makeSlots p input s = (.ok s.size, t) ∧ Filling s p input p.layout.names m base true t) ∨
      ∃ failure t, makeSlots p input s = (.error failure, t) ∧ s.Fresh t ∧ (p.layout.has baseName = true ∨
        (unknownSlot? p input).isSome = true ∨
        ∃ entry ∈ p.layout, s.checkSlot p.kind entry.1 entry.2 (input.read entry.1) = .error failure) := by
  rw [makeSlots_def]
  cases hunknown : unknownSlot? p input with
  | some name => exact .inr ⟨_, s, rfl, .refl hs hc, .inr (.inl rfl)⟩
  | none =>
    have hadd : Building.add (.ofMembers []) s = (.ok s.size, (s.add (.ofMembers [])).2) := rfl
    simp only
    rw [Building.bind_ok hadd]
    have hall : ∀ entry ∈ p.layout, entry ∈ p.layout := fun _ => id
    rcases (filling_add s p input).fillSlots hs hc hinput hh hall with
      ⟨m, base, t, hfill, ht⟩ | ⟨failure, filled, m, base, t, hfill, ht, hcause⟩
    · have hsealed : Filling s p input p.layout.names m base true
          (t.modify s.size fun c => { c with object := sealRecord c.object }) :=
        ht.modify rfl ht.own (fun slot hslot => ht.complete slot (by simpa using hslot)) ht.extending
          (fun hslot => ht.based (by simpa using hslot)) ht.plain
      exact .inl ⟨m, base, _, by rw [Building.bind_ok hfill]; rfl, hsealed⟩
    · exact .inr ⟨failure, t, Building.bind_error hfill, ht.fresh hs hc, hcause.imp_right .inr⟩

end Store

end LosslessSyntax
