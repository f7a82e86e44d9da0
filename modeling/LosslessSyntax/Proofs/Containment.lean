import LosslessSyntax.Proofs.Journals
import LosslessSyntax.Proofs.Priming

/-!
# Stores that refer to their own objects

A store is contained (`Store.Contained`) if whatever an object of it extends or holds is an object of the store as well.
Then nothing that was there before is read in another way after something has been built, but for parents and for the
stack texts of errors: a look-up of an old object never leaves the old objects.

* `Store.seekFrom_eq`: a look-up goes through no object twice, so that the size of the store is as good a bound as any.
* `Store.Expands.lookup`, `Store.Expands.kindName`, `Store.Expands.filled`: what is read of old objects stays the same.
* `Store.Contained.primed_expands`: two stores that are the same once primed are still the same after the same was
  built in both of them.
-/

namespace LosslessSyntax

/-! ## Chains -/

namespace Store

variable {s t : Store} {name : Text} {id : ObjectId}

theorem seekFrom_mono {found : ObjectId × Value} {n m : Nat} (h : s.seekFrom name n id = some found) (hle : n ≤ m) :
    s.seekFrom name m id = some found := by
  induction n generalizing id m with
  | zero => cases h
  | succ n ih =>
    obtain ⟨m, rfl⟩ := Nat.exists_eq_succ_of_ne_zero (by omega : m ≠ 0)
    rw [Nat.succ_eq_add_one, seekFrom] at *
    cases hcell : s.cell? id with
    | none =>
      rw [hcell] at h
      cases h
    | some c =>
      rw [hcell] at h
      dsimp only at h ⊢
      cases hown : c.object.own? name with
      | some value =>
        rw [hown] at h
        exact h
      | none =>
        rw [hown] at h
        cases hbase : c.base with
        | none =>
          rw [hbase] at h
          cases h
        | some b =>
          rw [hbase] at h
          exact ih h (by omega)

/-- A member is found in just so many steps. -/
structure FoundAfter (s : Store) (name : Text) (n : Nat) (id : ObjectId) : Prop where
  before : s.seekFrom name n id = none
  found : (s.seekFrom name (n + 1) id).isSome

theorem FoundAfter.unique {n m : Nat} (h : s.FoundAfter name n id) (h' : s.FoundAfter name m id) : n = m := by
  have hnot : ∀ {n m : Nat}, s.FoundAfter name n id → s.FoundAfter name m id → ¬ n < m := by
    intro n m h h' hlt
    obtain ⟨found, hfound⟩ := Option.isSome_iff_exists.mp h.found
    have hbefore := h'.before
    rw [seekFrom_mono hfound hlt] at hbefore
    cases hbefore
  have := hnot h h'
  have := hnot h' h
  omega

theorem FoundAfter.lt_size {n : Nat} (h : s.FoundAfter name n id) : id < s.size := by
  refine Nat.lt_of_not_le fun hge => ?_
  have hfound := h.found
  rw [seekFrom, cell?_eq_none hge] at hfound
  cases hfound

theorem FoundAfter.base {n : Nat} (h : s.FoundAfter name (n + 1) id) : ∃ b, s.FoundAfter name n b := by
  obtain ⟨hbefore, hfound⟩ := h
  rw [seekFrom] at hbefore hfound
  cases hcell : s.cell? id with
  | none =>
    rw [hcell] at hfound
    cases hfound
  | some c =>
    rw [hcell] at hbefore hfound
    dsimp only at hbefore hfound
    cases hown : c.object.own? name with
    | some value =>
      rw [hown] at hbefore
      cases hbefore
    | none =>
      rw [hown] at hbefore hfound
      cases hbase : c.base with
      | none =>
        rw [hbase] at hfound
        cases hfound
      | some b =>
        rw [hbase] at hbefore hfound
        exact ⟨b, hbefore, hfound⟩

/-- The objects on the way to a member are all different, as they are at different distances from it. -/
theorem FoundAfter.lt {n : Nat} (h : s.FoundAfter name n id) : n < s.size := by
  have hway : ∃ ids : List ObjectId, ids.length = n + 1 ∧ ids.Nodup ∧ ∀ i ∈ ids, ∃ m ≤ n, s.FoundAfter name m i := by
    induction n generalizing id with
    | zero => exact ⟨[id], rfl, List.nodup_singleton id, fun i hi => ⟨0, Nat.le_refl _, List.mem_singleton.mp hi ▸ h⟩⟩
    | succ n ih =>
      obtain ⟨b, hb⟩ := h.base
      obtain ⟨ids, hlength, hnodup, hids⟩ := ih hb
      refine ⟨id :: ids, by rw [List.length_cons, hlength], List.nodup_cons.mpr ⟨fun hmem => ?_, hnodup⟩, ?_⟩
      · obtain ⟨m, hm, hfound⟩ := hids id hmem
        have := h.unique hfound
        omega
      · intro i hi
        rcases List.mem_cons.mp hi with rfl | hi
        · exact ⟨n + 1, Nat.le_refl _, h⟩
        · obtain ⟨m, hm, hfound⟩ := hids i hi
          exact ⟨m, by omega, hfound⟩
  obtain ⟨ids, hlength, hnodup, hids⟩ := hway
  have hsub : ids ⊆ List.range s.size := fun i hi => by
    obtain ⟨m, _, hfound⟩ := hids i hi
    exact List.mem_range.mpr hfound.lt_size
  have hle := hnodup.length_le_of_subset hsub
  rw [List.length_range, hlength] at hle
  exact hle

/-- The size of the store bounds every look-up. -/
theorem seekFrom_eq {n : Nat} (h : s.size ≤ n) (name : Text) (id : ObjectId) :
    s.seekFrom name n id = s.seekFrom name s.size id := by
  induction n, h using Nat.le_induction with
  | base => rfl
  | succ n hle ih =>
    cases hn : s.seekFrom name n id with
    | some found => rw [seekFrom_mono hn (Nat.le_succ n), ← ih, hn]
    | none =>
      rw [← ih, hn]
      refine Option.not_isSome_iff_eq_none.mp fun hsome => ?_
      have := FoundAfter.lt ⟨hn, hsome⟩
      omega

end Store

/-! ## What objects hold -/

theorem Members.mem_merge {α : Type} {m other : Members α} {entry : Text × α} (h : entry ∈ m.merge other) :
    entry ∈ m ∨ entry ∈ other := by
  rw [merge] at h
  induction other generalizing m with
  | nil => exact .inl h
  | cons first rest ih =>
    rcases ih h with hset | hrest
    · rcases mem_set hset with hm | rfl
      · exact .inl hm
      · exact .inr List.mem_cons_self
    · exact .inr (List.mem_cons_of_mem _ hrest)

/-- Members none of which is an object beyond the first so many ones. -/
def Members.Within (m : Members Value) (size : Nat) : Prop := ∀ entry ∈ m, entry.2.Within size

namespace Members.Within

variable {m m' : Members Value} {size : Nat}

theorem append (h : m.Within size) (h' : m'.Within size) : Members.Within (m ++ m') size :=
  fun entry hentry => (List.mem_append.mp hentry).elim (h entry) (h' entry)

theorem left (h : Members.Within (m ++ m') size) : m.Within size :=
  fun entry hentry => h entry (List.mem_append_left _ hentry)

theorem right (h : Members.Within (m ++ m') size) : m'.Within size :=
  fun entry hentry => h entry (List.mem_append_right _ hentry)

theorem set (h : m.Within size) (name : Text) {value : Value} (hvalue : value.Within size) :
    (m.set name value).Within size := by
  intro entry hentry
  rcases Members.mem_set hentry with hentry | rfl
  · exact h entry hentry
  · exact hvalue

theorem ofSequence {items : Sequence} (h : ∀ v ∈ items.values, v.Within size) : items.members.Within size := by
  intro entry hentry
  obtain ⟨placed, hplaced, rfl⟩ := List.mem_map.mp hentry
  exact h placed.2 (List.mem_map.mpr ⟨placed, hplaced, rfl⟩)

theorem values {items : Sequence} (h : items.members.Within size) : ∀ v ∈ items.values, v.Within size := by
  intro v hv
  obtain ⟨placed, hplaced, rfl⟩ := List.mem_map.mp hv
  exact h _ (List.mem_map.mpr ⟨placed, hplaced, rfl⟩)

end Members.Within

namespace Object

/-- All members of an object, among them those of a node that are hidden by assigned ones. -/
def allMembers : Object → Members Value
  | .node n => n.madeWith ++ n.assigned
  | o => o.hidden ++ o.listed

theorem mem_allMembers_of_listed {o : Object} {entry : Text × Value} (h : entry ∈ o.listed) : entry ∈ o.allMembers := by
  cases o with
  | node n => exact List.mem_append.mpr (Members.mem_merge h)
  | _ => exact List.mem_append_right _ h

theorem mem_allMembers_of_own? {o : Object} {name : Text} {v : Value} (h : o.own? name = some v) :
    ∃ entry ∈ o.allMembers, entry.2 = v := by
  have hor : (o.hidden.get? name).or (o.listed.get? name) = some v → ∃ entry ∈ o.allMembers, entry.2 = v := by
    intro hor
    rcases Option.or_eq_some_iff.mp hor with hv | ⟨_, hv⟩
    · cases o with
      | node n => cases hv
      | _ => exact ⟨_, List.mem_append_left _ (Members.mem_of_get? hv), rfl⟩
    · exact ⟨_, mem_allMembers_of_listed (Members.mem_of_get? hv), rfl⟩
  cases o with
  | list items m isSealed =>
    rw [own?] at h
    split at h
    · obtain ⟨entry, hentry, rfl⟩ := List.mem_map.mp (Sequence.mem_values_of_get? h)
      exact ⟨_, List.mem_append_right _ (List.mem_append_left _ (List.mem_map.mpr ⟨entry, hentry, rfl⟩)), rfl⟩
    · split at h
      · cases h
        exact ⟨_, List.mem_append_left _ List.mem_cons_self, rfl⟩
      · exact ⟨_, List.mem_append_right _ (List.mem_append_right _ (Members.mem_of_get? h)), rfl⟩
  | _ => exact hor h

theorem own?_withStack (o : Object) (stack : Value) {name : Text} (h : name ≠ "stack") :
    (o.withStack stack).own? name = o.own? name := by
  cases o with
  | error named hidden m =>
    rw [withStack]
    split <;> simp [own?, Object.hidden, Object.listed, Members.get?_set, h]
  | _ => rfl

theorem own?_restacked (o : Object) (values : List Value) {name : Text} (h : name ≠ "stack") :
    (o.restacked values).own? name = o.own? name := by
  induction values generalizing o with
  | nil => rfl
  | cons stack values ih => exact (ih (o.withStack stack)).trans (o.own?_withStack stack h)

theorem node?_restacked (o : Object) (values : List Value) : (o.restacked values).node? = o.node? := by
  induction values generalizing o with
  | nil => rfl
  | cons stack values ih =>
    refine (ih (o.withStack stack)).trans ?_
    cases o with
    | error named hidden m =>
      rw [withStack]
      split <;> rfl
    | _ => rfl

/-- An error that does not list its stack text does not list it afterwards either. -/
theorem listed_restacked {o : Object} (h : ∀ {named hidden m}, o = .error named hidden m → hidden.has "stack" = true)
    (values : List Value) : (o.restacked values).listed = o.listed := by
  induction values generalizing o with
  | nil => rfl
  | cons stack values ih =>
    cases o with
    | error named hidden m =>
      have hset : ∀ {named' hidden' m'}, (error named hidden m).withStack stack = error named' hidden' m' →
          hidden'.has "stack" = true := by
        intro named' hidden' m' heq
        rw [withStack, if_pos (h rfl)] at heq
        cases heq
        rw [← Members.isSome_get?, Members.get?_set, if_pos rfl]
        rfl
      refine (ih hset).trans ?_
      rw [withStack, if_pos (h rfl)]
      rfl
    | _ => exact ih h

/-- An object that holds none but the first so many objects, and that lists no stack text if it is an error. -/
structure HoldsWithin (size : Nat) (o : Object) : Prop where
  members : o.allMembers.Within size
  stack : ∀ {named hidden m}, o = .error named hidden m → hidden.has "stack" = true

instance (size : Nat) (o : Object) : Decidable (o.HoldsWithin size) :=
  decidable_of_iff ((∀ entry ∈ o.allMembers, entry.2.Within size) ∧
      (match o with
        | .error _ hidden _ => hidden.has "stack"
        | _ => true) = true)
    ⟨fun h => ⟨h.1, fun heq => by cases heq; exact h.2⟩, fun h => ⟨h.members, by
      cases o with
      | error named hidden m => exact h.stack rfl
      | _ => rfl⟩⟩

theorem HoldsWithin.mono {size size' : Nat} {o : Object} (h : o.HoldsWithin size) (hle : size ≤ size') :
    o.HoldsWithin size' := ⟨fun entry hentry => (h.members entry hentry).mono hle, h.stack⟩

end Object

namespace Store

variable {s t u : Store} {name : Text} {id : ObjectId}

/-- A store in which objects extend and hold objects of the store only. -/
structure Contained (s : Store) : Prop where
  ground : ∀ g : Ground, g.id < s.size
  base : ∀ {id b}, s.base? id = some b → b < s.size
  holds : ∀ {id o}, s.object? id = some o → o.HoldsWithin s.size

theorem contained_of_cells (hground : ∀ g ∈ Ground.all, g.id < s.size)
    (hcells : ∀ c ∈ s.cells.toList, (∀ b ∈ c.base, b < s.size) ∧ c.object.HoldsWithin s.size) : s.Contained where
  ground g := hground g (by cases g <;> decide)
  base {id b} hb := by
    obtain ⟨c, hc, hbase⟩ := Option.bind_eq_some_iff.mp hb
    exact (hcells c (Array.mem_toList_iff.mpr (Array.mem_of_getElem? hc))).1 b hbase
  holds {id o} ho := by
    obtain ⟨c, hc, rfl⟩ := Option.map_eq_some_iff.mp ho
    exact (hcells c (Array.mem_toList_iff.mpr (Array.mem_of_getElem? hc))).2

namespace Contained

theorem withKept (h : s.Contained) (k : ObjectId → Kept) : (s.withKept k).Contained := ⟨h.ground, h.base, h.holds⟩

theorem seek (h : s.Contained) {holder : ObjectId} {value : Value} (hseek : s.seek id name = some (holder, value)) :
    value.Within s.size := by
  obtain ⟨_, o, ho, hown⟩ := mem_of_seekFrom hseek
  obtain ⟨entry, hentry, rfl⟩ := Object.mem_allMembers_of_own? hown
  exact (h.holds ho).members entry hentry

theorem lookup (h : s.Contained) (id : ObjectId) (hname : name ≠ "parent") : (s.lookup id name).Within s.size := by
  rw [Store.lookup]
  cases hseek : s.seek id name with
  | none => trivial
  | some found =>
    obtain ⟨holder, value⟩ := found
    have hvalue := h.seek hseek
    dsimp only
    cases Ground.ofId? holder with
    | none => exact hvalue
    | some g =>
      simp only [groundMember, hname, decide_false, Bool.and_false, Bool.false_eq_true, if_false]
      split
      · cases hb : s.base? id with
        | none => trivial
        | some b => exact h.base hb
      · exact hvalue

theorem listed (h : s.Contained) (v : Value) : (s.listed v).Within s.size := by
  intro entry hentry
  cases v with
  | object id =>
    rw [Store.listed] at hentry
    cases ho : s.object? id with
    | none => simp [ho] at hentry
    | some o =>
      simp only [ho, Option.map_some, Option.getD_some] at hentry
      exact (h.holds ho).members entry (Object.mem_allMembers_of_listed hentry)
  | text t =>
    obtain ⟨unit, _, rfl⟩ := List.mem_map.mp hentry
    trivial
  | _ => cases hentry

end Contained

/-! ## Old objects -/

theorem Expands.base? (h : s.Expands t) (hid : id < s.size) : t.base? id = s.base? id := by
  obtain ⟨c, hc⟩ := exists_cell hid
  obtain ⟨c', hc', hstays⟩ := h.stays hc
  simp only [Store.base?, hc, hc', Option.bind_some, hstays.base]

/-- An old object is still the same, unless it is an error. -/
theorem Expands.object? (h : s.Expands t) {o : Object} (ho : s.object? id = some o) :
    ∃ values, t.object? id = some (o.restacked values) := by
  obtain ⟨c, hc, rfl⟩ := Option.map_eq_some_iff.mp ho
  obtain ⟨c', hc', hstays⟩ := h.stays hc
  obtain ⟨values, hvalues⟩ := hstays.object
  exact ⟨values, by rw [Store.object?, hc', Option.map_some, hvalues]⟩

theorem Expands.seekFrom (h : s.Expands t) (hs : s.Contained) (hname : name ≠ "stack") (n : Nat) (hid : id < s.size) :
    t.seekFrom name n id = s.seekFrom name n id := by
  induction n generalizing id with
  | zero => rfl
  | succ n ih =>
    obtain ⟨c, hc⟩ := exists_cell hid
    obtain ⟨c', hc', hstays⟩ := h.stays hc
    obtain ⟨values, hvalues⟩ := hstays.object
    have hown : c'.object.own? name = c.object.own? name := by rw [hvalues, Object.own?_restacked _ _ hname]
    simp only [Store.seekFrom, hc, hc', hown, hstays.base]
    cases c.object.own? name with
    | some value => rfl
    | none =>
      cases hb : c.base with
      | none => rfl
      | some b => exact ih (hs.base (by rw [Store.base?, hc]; exact hb))

/-- A look-up of an old object does not leave the old objects. -/
theorem Expands.seek (h : s.Expands t) (hs : s.Contained) (hname : name ≠ "stack") (hid : id < s.size) :
    t.seek id name = s.seek id name := by
  have hle := h.size_le
  rw [Store.seek, Store.seek, h.seekFrom hs hname _ hid, seekFrom_eq (by omega),
    seekFrom_eq (n := s.size + 1) (by omega)]

theorem Expands.lookup (h : s.Expands t) (hs : s.Contained) (hname : name ≠ "stack") (hparent : name ≠ "parent")
    (hid : id < s.size) : t.lookup id name = s.lookup id name := by
  rw [Store.lookup, Store.lookup, h.seek hs hname hid]
  cases s.seek id name with
  | none => rfl
  | some found =>
    simp only [groundMember, h.base? hid, hparent, decide_false, Bool.and_false, Bool.false_eq_true, if_false]

theorem Expands.names (h : s.Expands t) (hs : s.Contained) {v : Value} (hv : v.Within s.size) :
    t.names v = s.names v := by
  cases v with
  | object id =>
    obtain ⟨c, hc⟩ := exists_cell hv
    have ho : s.object? id = some c.object := by rw [Store.object?, hc]; rfl
    obtain ⟨values, hvalues⟩ := h.object? ho
    simp only [Store.names, Store.listed, ho, hvalues, Option.map_some, Object.listed_restacked (hs.holds ho).stack]
  | _ => rfl

theorem Expands.member (h : s.Expands t) (hs : s.Contained) (hname : name ≠ "stack") (hparent : name ≠ "parent")
    {v : Value} (hv : v.Within s.size) : t.member name v = s.member name v := by
  cases v with
  | object id => exact congrArg Except.ok (h.lookup hs hname hparent hv)
  | _ => rfl

theorem Expands.listing? (h : s.Expands t) (hs : s.Contained) (hid : id < s.size) : t.listing? id = s.listing? id := by
  rw [Store.listing?, Store.listing?, h.lookup hs (by decide) (by decide) hid,
    h.names hs (hs.lookup id (by decide))]

theorem Expands.madeVariant? (h : s.Expands t) (hid : id < s.size) :
    t.madeVariant? (.object id) = s.madeVariant? (.object id) := by
  obtain ⟨c, hc⟩ := exists_cell hid
  have ho : s.object? id = some c.object := by rw [Store.object?, hc]; rfl
  obtain ⟨values, hvalues⟩ := h.object? ho
  simp only [Store.madeVariant?, Value.object?, Option.bind_some, Store.node?, ho, hvalues, Object.node?_restacked]

theorem Expands.kindName (h : s.Expands t) (hs : s.Contained) (hid : id < s.size) :
    t.kindName (.object id) = s.kindName (.object id) := by
  have hvariant : (s.lookup id "variant").Within s.size := hs.lookup id (by decide)
  rw [Store.kindName, Store.kindName, h.madeVariant? hid]
  cases s.madeVariant? (.object id) with
  | some w => rfl
  | none =>
    show t.member "name" (t.lookup id "variant") = s.member "name" (s.lookup id "variant")
    rw [h.lookup hs (by decide) (by decide) hid, h.member hs (by decide) (by decide) hvariant]

/-- What could be kept beside an old object is the same as before. -/
theorem Expands.filled (h : s.Expands t) (hs : s.Contained) (hid : id < s.size) : t.filled id = s.filled id := by
  rw [Store.filled, Store.filled, h.kept, h.listing? hs hid, freshDocument?, freshDocument?, h.kindName hs hid,
    h.lookup hs (by decide) (by decide) hid]

/-! ## Stores with the same cells -/

theorem cells_of_primed {s t : Store} (h : t.primed = s.primed) : t.cells = s.cells := by
  show t.primed.cells = s.primed.cells
  rw [h]

/-- What was the same once primed is the same once primed after the same was built. -/
theorem Contained.primed_expands {s' t' : Store} (hs : s.Contained) (h : s'.primed = s.primed) (ht : s.Expands t)
    (ht' : s'.Expands t') (hcells : t'.cells = t.cells) : t'.primed = t.primed := by
  have hsame : s'.cells = s.cells := cells_of_primed h
  have hs' : s'.Contained := by
    rw [eq_withKept hsame]
    exact hs.withKept _
  refine eq_of_cells hcells fun id hid => ?_
  have hid' : id < t'.size := by rw [size, hcells]; exact hid
  rw [kept_primed (s := t) hid, kept_primed hid']
  by_cases hold : id < s.size
  · have hold' : id < s'.size := by rw [size, hsame]; exact hold
    rw [ht.filled hs hold, ht'.filled hs' hold', ← kept_primed hold, ← kept_primed hold', h]
  · have hnew := Nat.not_lt.mp hold
    rw [filled, filled, ht.kept, ht'.kept, s.kept_new id hnew, s'.kept_new id (by rw [hsame]; exact hnew),
      eq_withKept hcells, listing?_withKept, freshDocument?_withKept]

end Store

end LosslessSyntax
