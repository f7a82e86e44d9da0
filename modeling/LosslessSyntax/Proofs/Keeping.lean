import LosslessSyntax.Proofs.Attempts
import LosslessSyntax.Tree.Build
import LosslessSyntax.Tree.Items

/-!
# Stores that keep their objects

Building only adds objects to a store and sets links, so that what was there is read as before. `Store.Keeps` says that a
store has every object of another one, with what it holds and what it extends. The look-up of a member goes along a
chain whose length is bounded by the size of the store; in a store in which every chain ends (`Store.Grounded`) that
bound is never met, and all look-ups agree.

* `Grounded.lookup_keeps`: members are the same, but for the parent that a node shows;
* `Grounded.isNode_keeps`, `Grounded.token?_keeps`, `Grounded.items?_keeps`, …: what an object is for the functions that
  read trees is the same.
-/

namespace LosslessSyntax

/-- A value that is no object beyond the first so many ones. -/
def Value.Within (size : Nat) : Value → Prop
  | .object id => id < size
  | _ => True

instance (size : Nat) : (v : Value) → Decidable (v.Within size)
  | .object id => inferInstanceAs (Decidable (id < size))
  | .undefined | .null | .bool _ | .number _ | .bigint _ | .text _ | .operation _ => isTrue trivial

theorem Value.Within.mono {size size' : Nat} {v : Value} (h : v.Within size) (hle : size ≤ size') : v.Within size' := by
  cases v with
  | object id => exact Nat.lt_of_lt_of_le h hle
  | _ => trivial

/-- An object that refers to no object beyond the first so many ones. -/
structure Object.Refers (size : Nat) (o : Object) : Prop where
  own : ∀ {name v}, o.own? name = some v → v.Within size
  items : ∀ {q}, o.items? = some q → ∀ v ∈ q.values, v.Within size

theorem Object.Refers.mono {size size' : Nat} {o : Object} (h : o.Refers size) (hle : size ≤ size') : o.Refers size' :=
  ⟨fun hown => (h.own hown).mono hle, fun hitems v hv => (h.items hitems v hv).mono hle⟩

/-- An object that is no list refers to what is among its members. -/
theorem Object.refers_of_members {size : Nat} {o : Object} (hlist : ∀ items m isSealed, o ≠ .list items m isSealed)
    (h : ∀ entry ∈ o.hidden ++ o.listed, entry.2.Within size) : o.Refers size where
  own {name v} hown := by
    have hor : (o.hidden.get? name).or (o.listed.get? name) = some v := by
      cases o with
      | list items m isSealed => exact absurd rfl (hlist items m isSealed)
      | _ => exact hown
    rcases Option.or_eq_some_iff.mp hor with hv | ⟨_, hv⟩
    · exact h _ (List.mem_append_left _ (Members.mem_of_get? hv))
    · exact h _ (List.mem_append_right _ (Members.mem_of_get? hv))
  items {q} hq := by
    cases o with
    | list items m isSealed => exact absurd rfl (hlist items m isSealed)
    | ground g =>
      cases g with
      | list => cases hq; nofun
      | _ => cases hq
    | _ => cases hq

theorem Object.refers_list {size : Nat} {items : Sequence} {m : Members Value} {isSealed : Bool}
    (hitems : ∀ v ∈ items.values, v.Within size) (hm : ∀ entry ∈ m, entry.2.Within size) :
    (Object.list items m isSealed).Refers size where
  own {name v} hown := by
    simp only [Object.own?] at hown
    cases hi : Members.index? name with
    | some i =>
      rw [hi] at hown
      exact hitems v (Sequence.mem_values_of_get? hown)
    | none =>
      rw [hi] at hown
      simp only at hown
      split at hown
      · cases hown
        trivial
      · exact hm _ (Members.mem_of_get? hown)
  items hq := by
    cases hq
    exact hitems

theorem Ground.eq_id_of_ofId? {id : ObjectId} {g : Ground} (h : Ground.ofId? id = some g) : id = g.id := by
  simp only [Ground.ofId?, Ground.all] at h
  rcases id with _ | _ | _ | _ | _ | _ | id <;> simp at h <;> rw [← h] <;> rfl

theorem Object.base?_ground {o : Object} {b : ObjectId} (h : o.base? = some b) : ∃ g : Ground, b = g.id := by
  cases o with
  | ground g =>
    obtain ⟨g', _, rfl⟩ := Option.map_eq_some_iff.mp h
    exact ⟨g', rfl⟩
  | error named hidden members =>
    cases h
    cases named
    · exact ⟨.error, rfl⟩
    · exact ⟨.namedError, rfl⟩
  | node n =>
    cases h
    cases n.isSourceFile
    · exact ⟨.node, rfl⟩
    · exact ⟨.file, rfl⟩
  | list => cases h; exact ⟨.list, rfl⟩
  | _ => cases h; exact ⟨.record, rfl⟩

namespace Store

/-! ## Cells -/

theorem cell?_add (s : Store) (o : Object) (id : Nat) :
    (s.add o).2.cell? id = if id = s.size then some (.ofObject o) else s.cell? id := Array.getElem?_push ..

@[simp] theorem size_add (s : Store) (o : Object) : (s.add o).2.size = s.size + 1 := Array.size_push ..

theorem cell?_addAll (s : Store) (os : List Object) (id : Nat) :
    (s.addAll os).cell? id = if id < s.size then s.cell? id else (os[id - s.size]?).map Cell.ofObject := by
  rw [addAll, cell?, withCells, Array.getElem?_append]
  simp only [size, cell?, List.getElem?_toArray, List.getElem?_map]
  rfl

@[simp] theorem size_addAll (s : Store) (os : List Object) : (s.addAll os).size = s.size + os.length := by
  simp [addAll, size, withCells]

theorem cell?_modify (s : Store) (i id : Nat) (change : Cell → Cell) :
    (s.modify i change).cell? id = if i = id then (s.cell? id).map change else s.cell? id := Array.getElem?_modify ..

@[simp] theorem size_modify (s : Store) (i : ObjectId) (change : Cell → Cell) : (s.modify i change).size = s.size :=
  Array.size_modify ..

theorem withCells_congr {s : Store} {cells cells' : Array Cell} {h : s.cells.size ≤ cells.size}
    {h' : s.cells.size ≤ cells'.size} (heq : cells = cells') : s.withCells cells h = s.withCells cells' h' := by
  subst heq
  rfl

theorem kept_keep (s : Store) (id : ObjectId) (change : Kept → Kept) (i : ObjectId) :
    (s.keep id change).kept i = if i = id ∧ id < s.size then change (s.kept i) else s.kept i := by
  show (if (i = id && decide (id < s.size)) = true then _ else _) = _
  simp only [Bool.and_eq_true, decide_eq_true_eq]

/-! ## Chains that end -/

/-- A store has the objects of another one, with what they hold and what they extend. -/
structure Keeps (s t : Store) : Prop where
  size_le : s.size ≤ t.size
  object : ∀ {id}, id < s.size → t.object? id = s.object? id
  base : ∀ {id}, id < s.size → t.base? id = s.base? id

theorem Keeps.refl (s : Store) : s.Keeps s := ⟨Nat.le_refl _, fun _ => rfl, fun _ => rfl⟩

theorem Keeps.trans {s t u : Store} (h : s.Keeps t) (h' : t.Keeps u) : s.Keeps u :=
  ⟨Nat.le_trans h.size_le h'.size_le,
    fun hid => (h'.object (Nat.lt_of_lt_of_le hid h.size_le)).trans (h.object hid),
    fun hid => (h'.base (Nat.lt_of_lt_of_le hid h.size_le)).trans (h.base hid)⟩

/-- A store begins with the cells of another one, links included. -/
structure Extends (s t : Store) : Prop where
  size_le : s.size ≤ t.size
  cell : ∀ {id}, id < s.size → t.cell? id = s.cell? id

theorem Extends.keeps {s t : Store} (h : s.Extends t) : s.Keeps t :=
  ⟨h.size_le, fun hid => by rw [object?, object?, h.cell hid], fun hid => by rw [base?, base?, h.cell hid]⟩

theorem Extends.refl (s : Store) : s.Extends s := ⟨Nat.le_refl _, fun _ => rfl⟩

theorem Extends.add {s t : Store} (h : s.Extends t) (o : Object) : s.Extends (t.add o).2 where
  size_le := by rw [size_add]; exact Nat.le_succ_of_le h.size_le
  cell hid := by
    rw [cell?_add, if_neg (Nat.ne_of_lt (Nat.lt_of_lt_of_le hid h.size_le)), h.cell hid]

theorem Extends.modify {s t : Store} (h : s.Extends t) {i : ObjectId} (hi : s.size ≤ i) (change : Cell → Cell) :
    s.Extends (t.modify i change) where
  size_le := by rw [size_modify]; exact h.size_le
  cell hid := by rw [cell?_modify, if_neg (Nat.ne_of_gt (Nat.lt_of_lt_of_le hid hi)), h.cell hid]

/-- The chain of an object is no longer than so many objects, itself included, and all of them are there. -/
def Ends (s : Store) : Nat → ObjectId → Prop
  | 0, _ => False
  | n + 1, id => id < s.size ∧ ∀ b, s.base? id = some b → Ends s n b

/-- A store that begins with the grounds, as they were, and in which every chain ends. -/
structure Grounded (s : Store) : Prop where
  object : ∀ g : Ground, s.object? g.id = some (.ground g)
  base : ∀ g : Ground, s.base? g.id = g.base?.map Ground.id
  ends : ∀ {id}, id < s.size → s.Ends s.size id

variable {s t : Store}

theorem cell?_eq_none {id : ObjectId} (h : s.size ≤ id) : s.cell? id = none := Array.getElem?_eq_none h

theorem lt_size_of_object? {id : ObjectId} {o : Object} (h : s.object? id = some o) : id < s.size := by
  refine Nat.lt_of_not_le fun hge => ?_
  rw [object?, cell?_eq_none hge] at h
  cases h

theorem lt_size_of_base? {id b : ObjectId} (h : s.base? id = some b) : id < s.size := by
  refine Nat.lt_of_not_le fun hge => ?_
  rw [base?, cell?_eq_none hge] at h
  cases h

theorem lt_size_of_leadsFrom {target : ObjectId} {steps : Nat} {id : ObjectId}
    (h : s.leadsFrom target steps id = true) : id < s.size := by
  cases steps with
  | zero => cases h
  | succ steps =>
    rw [leadsFrom] at h
    cases hb : s.base? id with
    | none => rw [hb] at h; cases h
    | some b => exact lt_size_of_base? hb

theorem lt_size_of_isNode {id : ObjectId} (h : s.isNode id = true) : id < s.size := lt_size_of_leadsFrom h

theorem lt_size_of_token? {id : ObjectId} {t : Token} (h : s.token? id = some t) : id < s.size := by
  rw [token?] at h
  cases ho : s.object? id with
  | none => rw [ho] at h; cases h
  | some o => exact lt_size_of_object? ho

theorem isElement_object {v : Value} (h : s.isElement v = true) : ∃ id, v = .object id ∧ id < s.size := by
  cases v with
  | object id =>
    refine ⟨id, rfl, ?_⟩
    simp only [isElement, Bool.or_eq_true, Option.isSome_iff_exists] at h
    rcases h with hnode | ⟨t, ht⟩
    · exact lt_size_of_isNode hnode
    · exact lt_size_of_token? ht
  | _ => cases h

theorem isSome_items? (s : Store) (v : Value) : (s.items? v).isSome = s.isList v := by
  cases v with
  | object id =>
    simp only [items?, isList, Value.object?, Option.bind_some, object?]
    cases s.cell? id with
    | none => rfl
    | some c =>
      simp only [Option.map_some, Option.bind_some]
      split
      · rfl
      · rw [Option.isSome_map]
  | _ => rfl

theorem exists_cell {id : ObjectId} (h : id < s.size) : ∃ c, s.cell? id = some c :=
  ⟨_, Array.getElem?_eq_getElem h⟩

theorem Grounded.ground_lt (hs : s.Grounded) (g : Ground) : g.id < s.size := lt_size_of_object? (hs.object g)

theorem Ends.mono {n m : Nat} {id : ObjectId} (h : s.Ends n id) (hnm : n ≤ m) : s.Ends m id := by
  induction n generalizing m id with
  | zero => cases h
  | succ n ih =>
    obtain ⟨m, rfl⟩ := Nat.exists_eq_succ_of_ne_zero (by omega : m ≠ 0)
    exact ⟨h.1, fun b hb => ih (h.2 b hb) (by omega)⟩

theorem Ends.keeps (hk : s.Keeps t) {n : Nat} {id : ObjectId} (h : s.Ends n id) : t.Ends n id := by
  induction n generalizing id with
  | zero => cases h
  | succ n ih =>
    refine ⟨Nat.lt_of_lt_of_le h.1 hk.size_le, fun b hb => ih (h.2 b ?_)⟩
    rwa [hk.base h.1] at hb

theorem seekFrom_succ (s : Store) (name : Text) (steps : Nat) (id : ObjectId) :
    s.seekFrom name (steps + 1) id = (s.object? id).bind fun o =>
      match o.own? name with
      | some value => some (id, value)
      | none => (s.base? id).bind (s.seekFrom name steps) := by
  rw [seekFrom, object?, base?]
  cases s.cell? id <;> rfl

theorem seekFrom_keeps (hk : s.Keeps t) (name : Text) {n k k' : Nat} {id : ObjectId} (h : s.Ends n id) (hn : n ≤ k)
    (hn' : n ≤ k') : t.seekFrom name k' id = s.seekFrom name k id := by
  induction n generalizing id k k' with
  | zero => cases h
  | succ n ih =>
    obtain ⟨k, rfl⟩ := Nat.exists_eq_succ_of_ne_zero (by omega : k ≠ 0)
    obtain ⟨k', rfl⟩ := Nat.exists_eq_succ_of_ne_zero (by omega : k' ≠ 0)
    rw [Nat.succ_eq_add_one, Nat.succ_eq_add_one, seekFrom_succ, seekFrom_succ, hk.object h.1, hk.base h.1]
    cases s.object? id with
    | none => rfl
    | some o =>
      simp only [Option.bind_some]
      cases o.own? name with
      | some value => rfl
      | none =>
        cases hb : s.base? id with
        | none => rfl
        | some b => exact ih (h.2 b hb) (by omega) (by omega)

theorem chainFrom_keeps (hk : s.Keeps t) {n k k' : Nat} {id : ObjectId} (h : s.Ends n id) (hn : n ≤ k + 1)
    (hn' : n ≤ k' + 1) : t.chainFrom k' id = s.chainFrom k id := by
  induction n generalizing id k k' with
  | zero => cases h
  | succ n ih =>
    cases hb : s.base? id with
    | none =>
      have hb' : t.base? id = none := by rw [hk.base h.1, hb]
      cases k <;> cases k' <;> simp [chainFrom, hb, hb']
    | some b =>
      have hb' : t.base? id = some b := by rw [hk.base h.1, hb]
      have hend := h.2 b hb
      have hpos : n ≠ 0 := by rintro rfl; cases hend
      obtain ⟨k, rfl⟩ := Nat.exists_eq_succ_of_ne_zero (by omega : k ≠ 0)
      obtain ⟨k', rfl⟩ := Nat.exists_eq_succ_of_ne_zero (by omega : k' ≠ 0)
      simp only [chainFrom, hb, hb']
      rw [ih (k := k) hend (by omega) (by omega)]

theorem leadsFrom_eq_contains (s : Store) (target : ObjectId) (k : Nat) (id : ObjectId) :
    s.leadsFrom target k id = (s.chainFrom k id).contains target := by
  induction k generalizing id with
  | zero => rfl
  | succ k ih =>
    rw [leadsFrom, chainFrom]
    cases s.base? id with
    | none => rfl
    | some b => simp only [List.contains_cons, ih, Bool.beq_comm (a := b)]

theorem Ends.mem_chainFrom {n k : Nat} {id b : ObjectId} (h : s.Ends n id) (hb : b ∈ s.chainFrom k id) :
    b < s.size := by
  induction n generalizing id k with
  | zero => cases h
  | succ n ih =>
    cases k with
    | zero => cases hb
    | succ k =>
      rw [chainFrom] at hb
      cases hbase : s.base? id with
      | none => rw [hbase] at hb; cases hb
      | some first =>
        rw [hbase] at hb
        rcases List.mem_cons.mp hb with rfl | hb
        · have hend := h.2 b hbase
          cases n with
          | zero => cases hend
          | succ n => exact hend.1
        · exact ih (h.2 first hbase) hb

/-- Of the objects that keep what they are, the grounds and the ends of chains stay. -/
theorem Grounded.of_keeps (hs : s.Grounded) (hk : s.Keeps t)
    (hnew : ∀ {id}, s.size ≤ id → id < t.size → t.Ends t.size id) : t.Grounded where
  object g := by rw [hk.object (hs.ground_lt g), hs.object g]
  base g := by rw [hk.base (hs.ground_lt g), hs.base g]
  ends {id} hid := by
    rcases Nat.lt_or_ge id s.size with hlt | hge
    · exact ((hs.ends hlt).keeps hk).mono hk.size_le
    · exact hnew hge hid

/-- A new object extends a ground. -/
theorem Grounded.add (hs : s.Grounded) (o : Object) : (s.add o).2.Grounded := by
  have hk := ((Extends.refl s).add o).keeps
  refine hs.of_keeps hk fun {id} hge hlt => ?_
  rw [size_add] at hlt ⊢
  obtain rfl : id = s.size := by omega
  refine ⟨by rw [size_add]; exact hlt, fun b hb => ((hs.ends ?_).keeps hk)⟩
  rw [base?, cell?_add, if_pos rfl] at hb
  obtain ⟨g, rfl⟩ := Object.base?_ground hb
  exact hs.ground_lt g

/-- A member is found in the object itself or in an object of its chain that has it. -/
theorem mem_of_seekFrom {name : Text} {steps : Nat} {id holder : ObjectId} {value : Value}
    (h : s.seekFrom name steps id = some (holder, value)) :
    holder ∈ id :: s.chainFrom steps id ∧ ∃ o, s.object? holder = some o ∧ o.own? name = some value := by
  induction steps generalizing id with
  | zero => cases h
  | succ steps ih =>
    rw [seekFrom_succ] at h
    cases ho : s.object? id with
    | none => rw [ho] at h; cases h
    | some o =>
      rw [ho, Option.bind_some] at h
      cases hown : o.own? name with
      | some v =>
        rw [hown] at h
        cases h
        exact ⟨List.mem_cons_self, o, ho, hown⟩
      | none =>
        rw [hown] at h
        cases hb : s.base? id with
        | none => rw [hb] at h; cases h
        | some b =>
          rw [hb] at h
          obtain ⟨hmem, hholder⟩ := ih h
          refine ⟨List.mem_cons_of_mem _ ?_, hholder⟩
          rw [chainFrom, hb]
          exact hmem

/-- What grounds have, they have from grounds. -/
theorem Grounded.seekFrom_ground (hs : s.Grounded) {name : Text} {steps : Nat} {g : Ground} {holder : ObjectId}
    {value : Value} (h : s.seekFrom name steps g.id = some (holder, value)) :
    ∃ g' : Ground, holder = g'.id ∧ s.object? holder = some (.ground g') := by
  induction steps generalizing g with
  | zero => cases h
  | succ steps ih =>
    rw [seekFrom_succ, hs.object g, hs.base g, Option.bind_some] at h
    cases hown : (Object.ground g).own? name with
    | some v =>
      rw [hown] at h
      cases h
      exact ⟨g, rfl, hs.object g⟩
    | none =>
      rw [hown] at h
      cases hb : g.base? with
      | none => rw [hb] at h; cases h
      | some g' => rw [hb] at h; exact ih h

/-- Chains end before any bound is met, so that the chain of an object is that of its base with the base in front. -/
theorem Grounded.chain_eq (hs : s.Grounded) {id b : ObjectId} (hb : s.base? id = some b) :
    s.chain id = b :: s.chain b := by
  have hends := hs.ends (lt_size_of_base? hb)
  obtain ⟨n, hn⟩ := Nat.exists_eq_succ_of_ne_zero (Nat.ne_of_gt (Nat.zero_lt_of_lt (lt_size_of_base? hb)))
  rw [hn] at hends
  have hfuel := chainFrom_keeps (Keeps.refl s) (k := n + 1) (hends.2 b hb) (by omega) (Nat.le_succ n)
  rw [chain, chain, hn, Nat.succ_eq_add_one, ← hfuel, chainFrom, hb]

theorem isA_eq_contains (s : Store) (g : Ground) (id : ObjectId) : s.isA g id = (s.chain id).contains g.id := by
  rw [isA, leadsTo, leadsFrom_eq_contains, chain]

theorem Grounded.isA_of_base (hs : s.Grounded) {id b : ObjectId} (hb : s.base? id = some b) (g : Ground) :
    s.isA g id = (g.id == b || s.isA g b) := by
  rw [isA_eq_contains, isA_eq_contains, hs.chain_eq hb, List.contains_cons]

theorem Grounded.isA_ground (hs : s.Grounded) (g g' : Ground) :
    s.isA g g'.id = (g'.base?.map fun b => g.id == b.id || s.isA g b.id).getD false := by
  have hbase := hs.base g'
  cases hb : g'.base? with
  | some b => rw [hb] at hbase; exact hs.isA_of_base hbase g
  | none =>
    rw [hb] at hbase
    rw [isA, leadsTo]
    cases s.size with
    | zero => rfl
    | succ n => rw [leadsFrom, hbase]; rfl

/-- Source files are nodes, and so is what extends them. -/
theorem Grounded.isNode_of_isSourceFile (hs : s.Grounded) {id : ObjectId} (h : s.isSourceFile id = true) :
    s.isNode id = true := by
  have hends := hs.ends (lt_size_of_leadsFrom h)
  generalize s.size = n at hends
  induction n generalizing id with
  | zero => cases hends
  | succ n ih =>
    cases hb : s.base? id with
    | none =>
      rw [isSourceFile, isA, leadsTo] at h
      cases hn : s.size with
      | zero => rw [hn] at h; cases h
      | succ n => rw [hn, leadsFrom, hb] at h; cases h
    | some b =>
      rw [isSourceFile, hs.isA_of_base hb, Bool.or_eq_true, beq_iff_eq] at h
      rw [isNode, hs.isA_of_base hb, Bool.or_eq_true]
      refine .inr ?_
      rcases h with rfl | h
      · rw [hs.isA_ground]
        rfl
      · exact ih h (hends.2 b hb)

theorem Grounded.seekFrom_record (hs : s.Grounded) {name : Text} {steps : Nat} {holder : ObjectId} {value : Value}
    (h : s.seekFrom name steps Ground.record.id = some (holder, value)) : holder = Ground.record.id := by
  cases steps with
  | zero => cases h
  | succ steps =>
    rw [seekFrom_succ, hs.object .record, hs.base .record, Option.bind_some] at h
    cases hown : (Object.ground .record).own? name with
    | some v => rw [hown] at h; cases h; rfl
    | none => rw [hown] at h; cases h

/-! ## Members -/

namespace Grounded

variable (hs : s.Grounded) (hk : s.Keeps t)
include hs hk

theorem seek_keeps {id : ObjectId} (hid : id < s.size) (name : Text) : t.seek id name = s.seek id name :=
  seekFrom_keeps hk name (hs.ends hid) (Nat.le_succ _) (Nat.le_succ_of_le hk.size_le)

theorem chain_keeps {id : ObjectId} (hid : id < s.size) : t.chain id = s.chain id :=
  chainFrom_keeps hk (hs.ends hid) (Nat.le_succ _) (Nat.le_succ_of_le hk.size_le)

theorem isA_keeps {id : ObjectId} (hid : id < s.size) (g : Ground) : t.isA g id = s.isA g id := by
  rw [isA_eq_contains, isA_eq_contains, hs.chain_keeps hk hid]

theorem isNode_keeps {id : ObjectId} (hid : id < s.size) : t.isNode id = s.isNode id := hs.isA_keeps hk hid .node

theorem isSourceFile_keeps {id : ObjectId} (hid : id < s.size) : t.isSourceFile id = s.isSourceFile id :=
  hs.isA_keeps hk hid .file

/-- Members are the same, but for the parent that a node shows. -/
theorem lookup_keeps {id : ObjectId} (hid : id < s.size) {name : Text} (hname : name ≠ "parent") :
    t.lookup id name = s.lookup id name := by
  rw [lookup, lookup, hs.seek_keeps hk hid]
  cases s.seek id name with
  | none => rfl
  | some found =>
    obtain ⟨holder, value⟩ := found
    simp only [groundMember, hk.base hid, hname, decide_false, Bool.and_false, Bool.false_eq_true, if_false]

/-! ## Tokens and lists -/

theorem token?_keeps {id : ObjectId} (hid : id < s.size) : t.token? id = s.token? id := by
  have hl : ∀ name : Text, name ≠ "parent" → t.lookup id name = s.lookup id name :=
    fun name hname => hs.lookup_keeps hk hid hname
  rw [token?, token?, hk.object hid]
  rw [hl "tag" (by decide), tokenOfMembers?, tokenOfMembers?, hl "fullStart" (by decide), hl "start" (by decide),
    hl "length" (by decide), hl "kind" (by decide)]

theorem isElement_keeps {v : Value} (hv : v.Within s.size) : t.isElement v = s.isElement v := by
  cases v with
  | object id =>
    have hid : id < s.size := hv
    rw [isElement, isElement, hs.isNode_keeps hk hid, hs.token?_keeps hk hid]
  | _ => rfl

theorem elementOf?_keeps {v : Value} (hv : v.Within s.size) : t.elementOf? v = s.elementOf? v := by
  cases v with
  | object id =>
    have hid : id < s.size := hv
    rw [elementOf?, elementOf?, hs.isNode_keeps hk hid, hs.token?_keeps hk hid]
  | _ => rfl

omit hs in
theorem isList_keeps {v : Value} (hv : v.Within s.size) : t.isList v = s.isList v := by
  cases v with
  | object id => rw [isList, isList, Value.object?, Option.bind_some, Option.bind_some, hk.object hv]
  | _ => rfl

theorem isIterable_keeps {v : Value} (hv : v.Within s.size) : t.isIterable v = s.isIterable v := by
  cases v with
  | object id => simp only [isIterable, Value.object?, Option.any_some, hs.isA_keeps hk hv]
  | _ => rfl

omit hs hk in
theorem chainNamesFrom_congr {ids : List ObjectId} (h : ∀ id ∈ ids, t.object? id = s.object? id) (seen : List Text) :
    t.chainNamesFrom seen ids = s.chainNamesFrom seen ids := by
  induction ids generalizing seen with
  | nil => rfl
  | cons id ids ih =>
    rw [chainNamesFrom, chainNamesFrom, h id List.mem_cons_self]
    cases s.object? id with
    | none => rfl
    | some o => simp only [ih fun id hid => h id (List.mem_cons_of_mem _ hid)]

theorem chainNames_keeps {id : ObjectId} (hid : id < s.size) :
    t.chainNames (.object id) = s.chainNames (.object id) := by
  rw [chainNames, chainNames, hs.chain_keeps hk hid]
  refine chainNamesFrom_congr (fun b hb => hk.object ?_) []
  rcases List.mem_cons.mp hb with rfl | hb
  · exact hid
  · exact (hs.ends hid).mem_chainFrom hb

theorem elementsBelow_keeps {id : ObjectId} (hid : id < s.size) (length : Nat) :
    t.elementsBelow id length = s.elementsBelow id length := by
  have he : ∀ place, t.element? id place = s.element? id place := fun place => by
    rw [element?, element?, hs.seek_keeps hk hid]
  rw [elementsBelow, elementsBelow, hs.chainNames_keeps hk hid]
  simp only [he]

omit hs hk in
theorem items?_object (s : Store) (id : ObjectId) :
    s.items? (.object id) = (s.object? id).bind fun o =>
      if s.base? id = o.base? then o.items? else o.items?.map fun items => s.elementsBelow id items.length := by
  rw [items?, object?, base?]
  cases s.cell? id <;> rfl

theorem items?_keeps {v : Value} (hv : v.Within s.size) : t.items? v = s.items? v := by
  cases v with
  | object id =>
    have hid : id < s.size := hv
    rw [items?_object, items?_object, hk.object hid, hk.base hid]
    simp only [hs.elementsBelow_keeps hk hid]
  | _ => rfl

theorem iterated_keeps {v : Value} (hv : v.Within s.size) : t.iterated v = s.iterated v := by
  rw [iterated, iterated, hs.items?_keeps hk hv, hs.isIterable_keeps hk hv]

end Grounded

/-- The first ground is neither a node nor a token. -/
theorem Grounded.isElement_record (hs : s.Grounded) : s.isElement (.object Ground.record.id) = false := by
  have htag : s.lookup Ground.record.id "tag" = .undefined := by
    have hown : (Object.ground .record).own? "tag" = none := by decide
    rw [lookup, seek, seekFrom_succ, hs.object .record, hs.base .record, Option.bind_some, hown]
    rfl
  have htoken : s.token? Ground.record.id = none := by
    rw [token?, hs.object .record]
    simp only [htag]
    rfl
  rw [isElement, htoken, isNode, hs.isA_ground]
  rfl

/-! ## References -/

/-- A store whose objects refer only to objects that are there. -/
structure Closed (s : Store) : Prop where
  refers : ∀ {id o}, s.object? id = some o → o.Refers s.size

theorem Closed.add (hc : s.Closed) {o : Object} (ho : o.Refers (s.size + 1)) : (s.add o).2.Closed := by
  refine ⟨fun {id o'} ho' => ?_⟩
  rw [object?, cell?_add] at ho'
  rw [size_add]
  split at ho'
  · cases ho'
    exact ho
  · exact (hc.refers ho').mono (Nat.le_succ _)

theorem Closed.seek (hc : s.Closed) {id holder : ObjectId} {name : Text} {value : Value}
    (h : s.seek id name = some (holder, value)) : value.Within s.size := by
  obtain ⟨_, o, ho, hown⟩ := mem_of_seekFrom h
  exact (hc.refers ho).own hown

theorem Grounded.base_lt (hs : s.Grounded) {id b : ObjectId} (h : s.base? id = some b) : b < s.size := by
  have hends := hs.ends (lt_size_of_base? h)
  obtain ⟨n, hn⟩ := Nat.exists_eq_succ_of_ne_zero (Nat.ne_of_gt (Nat.zero_lt_of_lt (lt_size_of_base? h)))
  rw [hn] at hends
  have hb := hends.2 b h
  cases n with
  | zero => cases hb
  | succ n => exact hb.1

theorem Closed.lookup (hc : s.Closed) (hs : s.Grounded) (id : ObjectId) {name : Text} (hname : name ≠ "parent") :
    (s.lookup id name).Within s.size := by
  rw [Store.lookup]
  cases hseek : s.seek id name with
  | none => trivial
  | some found =>
    obtain ⟨holder, value⟩ := found
    have hvalue := hc.seek hseek
    simp only
    cases Ground.ofId? holder with
    | none => exact hvalue
    | some g =>
      simp only [groundMember, hname, decide_false, Bool.and_false, Bool.false_eq_true, if_false]
      split
      · cases hb : s.base? id with
        | none => trivial
        | some b => exact hs.base_lt hb
      · exact hvalue

theorem Closed.elementsBelow (hc : s.Closed) (id : ObjectId) (length : Nat) :
    ∀ v ∈ (s.elementsBelow id length).values, v.Within s.size := by
  have hfold : ∀ (places : List Nat) (q : Sequence), (∀ v ∈ q.values, v.Within s.size) →
      ∀ v ∈ (places.foldl (fun items place => (s.element? id place).elim items (items.set place)) q).values,
        v.Within s.size := by
    intro places
    induction places with
    | nil => exact fun q hq => hq
    | cons place places ih =>
      intro q hq
      refine ih _ fun v hv => ?_
      cases he : s.element? id place with
      | none =>
        simp only [he, Option.elim_none] at hv
        exact hq v hv
      | some value =>
        simp only [he, Option.elim_some] at hv
        obtain ⟨⟨holder, _⟩, hseek, rfl⟩ := Option.map_eq_some_iff.mp he
        rcases Sequence.mem_values_set hv with rfl | hold
        · exact hc.seek hseek
        · exact hq v hold
  exact hfold _ _ nofun

theorem Closed.items? (hc : s.Closed) {v : Value} {q : Sequence} (h : s.items? v = some q) :
    ∀ w ∈ q.values, w.Within s.size := by
  cases v with
  | object id =>
    rw [Grounded.items?_object] at h
    obtain ⟨o, ho, hq⟩ := Option.bind_eq_some_iff.mp h
    split at hq
    · exact (hc.refers ho).items hq
    · obtain ⟨items, _, rfl⟩ := Option.map_eq_some_iff.mp hq
      exact hc.elementsBelow id items.length
  | _ => cases h

theorem Closed.iterated (hc : s.Closed) {v : Value} (hv : v.Within s.size) {q : Sequence} (h : s.iterated v = .ok q) :
    ∀ w ∈ q.values, w.Within s.size := by
  rw [Store.iterated] at h
  cases hitems : s.items? v with
  | some items =>
    rw [hitems] at h
    simp only at h
    split at h
    · cases h
      exact hc.items? hitems
    · cases h
  | none =>
    rw [hitems] at h
    cases h
    rw [Sequence.values_ofList]
    intro w hw
    split at hw
    · cases hw
    · rw [List.mem_singleton.mp hw]
      exact hv

/-! ## The store of grounds -/

theorem grounded_empty : Store.empty.Grounded where
  object g := by cases g <;> rfl
  base g := by cases g <;> rfl
  ends {id} hid := by
    -- Every ground but the first extends one before it.
    have hground : ∀ g : Ground, ∀ n, g.id < n → Store.empty.Ends n g.id := by
      intro g n
      induction n generalizing g with
      | zero => exact fun h => absurd h (Nat.not_lt_zero _)
      | succ n ih =>
        intro hn
        refine ⟨by cases g <;> decide, fun b hb => ?_⟩
        have hbase : Store.empty.base? g.id = g.base?.map Ground.id := by cases g <;> rfl
        rw [hbase] at hb
        obtain ⟨g', hg', rfl⟩ := Option.map_eq_some_iff.mp hb
        refine ih g' (Nat.lt_of_lt_of_le ?_ (Nat.le_of_lt_succ hn))
        cases g <;> cases hg' <;> decide
    have hall : ∀ id : Nat, id < 6 → ∃ g : Ground, id = g.id
      | 0, _ => ⟨.record, rfl⟩
      | 1, _ => ⟨.list, rfl⟩
      | 2, _ => ⟨.error, rfl⟩
      | 3, _ => ⟨.namedError, rfl⟩
      | 4, _ => ⟨.node, rfl⟩
      | 5, _ => ⟨.file, rfl⟩
      | id + 6, h => absurd h (by omega)
    obtain ⟨g, rfl⟩ := hall id hid
    exact hground g _ hid

theorem closed_empty : Store.empty.Closed where
  refers {id o} ho := by
    have hmem : o ∈ Ground.all.map Object.ground := by
      obtain ⟨c, hc, rfl⟩ := Option.map_eq_some_iff.mp ho
      have := Array.mem_of_getElem? hc
      simp only [Store.empty, List.mem_toArray, List.mem_map] at this ⊢
      obtain ⟨g, hg, rfl⟩ := this
      exact ⟨g, hg, rfl⟩
    obtain ⟨g, _, rfl⟩ := List.mem_map.mp hmem
    refine Object.refers_of_members nofun ?_
    cases g <;> decide

end Store

end LosslessSyntax
