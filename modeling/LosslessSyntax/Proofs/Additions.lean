import LosslessSyntax.Proofs.Making
import Mathlib.Logic.Relation

/-!
# What building adds

Building a node takes a few sorts of steps only (`Store.BuildStep`): a new record or list, a new node, a member or the
base of a new record, the stack text of an error that the record extends, and links. What holds after building follows
from what each step keeps.

* `Store.builds_create`, `Store.builds_addFileBy`: building is a run of such steps, whether it succeeds or not.
* `Store.Builds.expands`: an object that was there before keeps what it extends and all that it holds, but for the stack
  text of an error, and what is kept beside it is as it was (`Store.Expands`).
-/

namespace LosslessSyntax

/-! ## Stack texts -/

namespace Object

/-- An error with another stack text, and any other object as it is. -/
def withStack (stack : Value) : Object → Object
  | .error named hidden m =>
    if hidden.has "stack" then .error named (hidden.set "stack" stack) m else .error named hidden (m.set "stack" stack)
  | o => o

/-- An object after its stack text has been set some times. -/
def restacked (values : List Value) (o : Object) : Object := values.foldl (fun o stack => o.withStack stack) o

theorem restacked_append (values values' : List Value) (o : Object) :
    o.restacked (values ++ values') = (o.restacked values).restacked values' := List.foldl_append ..

/-- What is no error has no stack text. -/
theorem restacked_eq {o : Object} (h : ∀ stack, o.withStack stack = o) (values : List Value) :
    o.restacked values = o := by
  induction values with
  | nil => rfl
  | cons stack values ih =>
    show (o.withStack stack).restacked values = o
    rw [h, ih]

end Object

/-! ## Growth -/

/-- A cell with the same base, whose object differs in the stack text at most. -/
structure Cell.Stays (c c' : Cell) : Prop where
  object : ∃ values, c'.object = c.object.restacked values
  base : c'.base = c.base

namespace Cell.Stays

variable {c c' c'' : Cell}

theorem refl (c : Cell) : c.Stays c := ⟨⟨[], rfl⟩, rfl⟩

theorem trans (h : c.Stays c') (h' : c'.Stays c'') : c.Stays c'' := by
  obtain ⟨values, hobject⟩ := h.object
  obtain ⟨values', hobject'⟩ := h'.object
  refine ⟨⟨values ++ values', ?_⟩, h'.base.trans h.base⟩
  rw [Object.restacked_append, ← hobject, hobject']

end Cell.Stays

namespace Store

variable {s t u : Store}

/-- A store whose objects stay in another one, with what is kept beside them. -/
structure Expands (s t : Store) : Prop where
  size_le : s.size ≤ t.size
  stays : ∀ {id c}, s.cell? id = some c → ∃ c', t.cell? id = some c' ∧ c.Stays c'
  kept : t.kept = s.kept

theorem lt_size_of_cell? {id : ObjectId} {c : Cell} (h : s.cell? id = some c) : id < s.size :=
  (Array.getElem?_eq_some_iff.mp h).1

namespace Expands

theorem refl (s : Store) : s.Expands s := ⟨Nat.le_refl _, fun {_ c} h => ⟨c, h, .refl c⟩, rfl⟩

theorem add (h : s.Expands t) (o : Object) : s.Expands (t.add o).2 where
  size_le := by
    rw [size_add]
    exact Nat.le_succ_of_le h.size_le
  stays {id c} hc := by
    rw [cell?_add, if_neg (Nat.ne_of_lt (Nat.lt_of_lt_of_le (lt_size_of_cell? hc) h.size_le))]
    exact h.stays hc
  kept := h.kept

/-- A change under which old cells stay. -/
theorem modify (h : s.Expands t) {i : ObjectId} {change : Cell → Cell}
    (hold : i < s.size → ∀ c, t.cell? i = some c → c.Stays (change c)) : s.Expands (t.modify i change) where
  size_le := by
    rw [size_modify]
    exact h.size_le
  stays {id c} hc := by
    obtain ⟨c', hc', hstays⟩ := h.stays hc
    rw [cell?_modify]
    split
    · rename_i heq
      subst heq
      exact ⟨change c', by rw [hc']; rfl, hstays.trans (hold (lt_size_of_cell? hc) c' hc')⟩
    · exact ⟨c', hc', hstays⟩
  kept := h.kept

/-- A change of a new cell. -/
theorem modify_new (h : s.Expands t) {i : ObjectId} (hi : s.size ≤ i) (change : Cell → Cell) :
    s.Expands (t.modify i change) :=
  h.modify fun hlt => absurd hlt (Nat.not_lt_of_le hi)

end Expands

/-! ## Assignments -/

/-- What an assignment to an object can change: nothing, its base, a member of it, or the stack text of an error that it
extends. -/
inductive Assigns (s : Store) (id : ObjectId) (name : Text) (value : Value) : Change → Prop
  | same : Assigns s id name value ⟨id, fun c => c⟩
  | base {base : Option ObjectId} (hvalue : base.elim .null .object = value)
      (hfree : ∀ b ∈ base, b ≠ id ∧ s.leadsTo b id = false) : Assigns s id name value ⟨id, fun c => { c with base }⟩
  | member {o object : Object} (ho : s.object? id = some o) (hset : s.setOn o name value = .ok object) :
      Assigns s id name value ⟨id, fun c => { c with object }⟩
  | stack {holder : ObjectId} {named : Option Text} {hidden m : Members Value}
      (ho : s.object? holder = some (.error named hidden m)) :
      Assigns s id name value ⟨holder, fun c => { c with object := (Object.error named hidden m).withStack value }⟩

theorem assigns_of_setBase {id : ObjectId} {value : Value} {c : Change} (h : s.setBase id value = .ok c) (name : Text) :
    s.Assigns id name value c := by
  unfold setBase at h
  simp only at h
  split at h
  · rename_i base cell hnew hcell
    have hvalue : base.elim .null .object = value := by
      cases value with
      | null => cases hnew; rfl
      | object b => cases hnew; rfl
      | _ => cases hnew
    split at h
    · cases h
      exact .same
    · split at h
      · cases h
      · rename_i hopen
        cases h
        refine .base hvalue fun b hb => ?_
        cases hb
        simp only [Option.any_some, Bool.or_eq_true, decide_eq_true_eq, not_or, Bool.not_eq_true] at hopen
        exact hopen.2
  · cases h
    exact .same

/-- A member is set on the object that is asked, but for the stack text of an error that it extends. -/
theorem target_eq_member {id holder : ObjectId} {name : Text} (h : s.target id name = .member holder) :
    holder = id ∨ name = "stack" ∧ ∃ named hidden m, s.object? holder = some (.error named hidden m) := by
  unfold target at h
  split at h
  · cases h
    exact .inl rfl
  · split at h
    · split at h <;> cases h
      exact .inl rfl
    · split at h <;> cases h
      exact .inl rfl
    · rename_i named hidden m ho
      split at h <;> cases h
      · exact .inr ⟨‹_›, named, hidden, m, ho⟩
      · exact .inl rfl
    · split at h <;> cases h
      exact .inl rfl
    · cases h
      exact .inl rfl

theorem assigns_of_assignment {id : ObjectId} {name : Text} {value : Value} {c : Change}
    (h : s.assignment id name value = .ok c) : s.Assigns id name value c := by
  unfold assignment at h
  split at h
  · exact assigns_of_setBase h name
  · cases h
  · rename_i holder htarget
    cases ho : s.object? holder with
    | none =>
      rw [ho] at h
      cases h
    | some o =>
      simp only [ho] at h
      obtain ⟨object, hset, h⟩ := Attempt.bind_eq_ok h
      cases h
      rcases target_eq_member htarget with rfl | ⟨rfl, named, hidden, m, herror⟩
      · exact .member ho hset
      · rw [ho] at herror
        cases herror
        cases hset
        exact .stack ho

theorem assigns_of_assignTo {id : ObjectId} {name : Text} {value : Value} (h : s.assignTo id name value = .ok t) :
    ∃ c, s.Assigns id name value c ∧ t = s.apply c := by
  rw [assignTo] at h
  cases hc : s.assignment id name value with
  | error misuse =>
    rw [hc] at h
    cases h
  | ok c =>
    rw [hc] at h
    exact ⟨c, assigns_of_assignment hc, (Except.ok.inj h).symm⟩

/-- An assignment to a new object leaves old ones as they were. -/
theorem Expands.assign (h : s.Expands t) {id : ObjectId} (hid : s.size ≤ id) {name : Text} {value : Value} {c : Change}
    (hc : t.Assigns id name value c) : s.Expands (t.apply c) := by
  cases hc with
  | same | base | member => exact h.modify_new hid _
  | stack ho =>
    refine h.modify fun _ cell hcell => ⟨⟨[value], ?_⟩, rfl⟩
    rw [object?, hcell] at ho
    show _ = cell.object.withStack value
    rw [Option.some.inj ho]

end Store

/-! ## Steps of building -/

/-- What a node is made of: what it is built against, what is given for its slots, its variant, and the members that
are assigned to it at once. -/
structure Recipe where
  plan : Plan
  input : Input
  variant : Variant
  assigned : Members Value

/-- A node that can be made by a recipe of what a store has. -/
structure Recipe.Makes (r : Recipe) (s : Store) (n : Node) : Prop where
  variant : n.variant = r.variant
  assigned : n.assigned = r.assigned
  slots : n.slots < s.size
  file : ∀ f ∈ n.file, f.endOfFile < s.size

namespace Store

variable {s t u : Store} {r : Recipe} {bound : Nat}

/-- A value that can be put into a slot of a new record: what was checked for the slot, or a list of the store. -/
def Prepared (r : Recipe) (slot : Text) (arity value : Value) (s : Store) : Prop :=
  s.checkSlot r.plan.kind slot arity (r.input.read slot) = .ok (.one value) ∨
    ∃ row, row < s.size ∧ value = .object row

/-- One step of building a node, where the objects from some number on are new. -/
inductive BuildStep (r : Recipe) (bound : Nat) : Store → Store → Prop
  | record (s : Store) : BuildStep r bound s (s.add (.ofMembers [])).2
  | row {s : Store} {slot : Text} {arity : Value} {values : List Value}
      (h : s.checkSlot r.plan.kind slot arity (r.input.read slot) = .ok (.many values)) :
      BuildStep r bound s (s.add (.list (.ofList values) [] true)).2
  | assign {s : Store} {id : ObjectId} {slot : Text} {arity value : Value} {c : Change} (hid : bound ≤ id)
      (hvalue : Prepared r slot arity value s)
      (h : s.Assigns id slot value c) : BuildStep r bound s (s.apply c)
  | sealing {s : Store} {id : ObjectId} (hid : bound ≤ id) :
      BuildStep r bound s (s.modify id fun c => { c with object := sealRecord c.object })
  | node {s : Store} {n : Node} (h : r.Makes s n) : BuildStep r bound s (s.add (.node n)).2
  | link {s : Store} {parent : ObjectId} {child : Value} {c : Change} (h : s.link parent child = .ok c) :
      BuildStep r bound s (s.apply c)

/-- Steps of building one after the other. -/
abbrev Builds (r : Recipe) (bound : Nat) : Store → Store → Prop := Relation.ReflTransGen (BuildStep r bound)

theorem BuildStep.size_le (h : BuildStep r bound s t) : s.size ≤ t.size := by
  cases h with
  | record | row | node => exact Nat.le_of_lt (by rw [size_add]; exact Nat.lt_succ_self _)
  | assign | sealing | link => exact Nat.le_of_eq (size_modify ..).symm

theorem Builds.size_le (h : Builds r bound s t) : s.size ≤ t.size := by
  induction h with
  | refl => exact Nat.le_refl _
  | tail _ hstep ih => exact Nat.le_trans ih hstep.size_le

theorem BuildStep.expands (h : s.Expands t) (hstep : BuildStep r s.size t u) : s.Expands u := by
  cases hstep with
  | record | row | node => exact h.add _
  | assign hid _ hc => exact h.assign hid hc
  | sealing hid => exact h.modify_new hid _
  | link hlink =>
    rename_i child c
    cases child with
    | object id =>
      cases hlink
      show s.Expands (t.modify id (if t.isNode id then _ else _))
      split
      · exact h.modify fun _ _ _ => ⟨⟨[], rfl⟩, rfl⟩
      · exact h.modify fun _ _ _ => ⟨⟨[], rfl⟩, rfl⟩
    | _ => cases hlink

/-- Building leaves the objects that were there before as they were, but for stack texts of errors and links. -/
theorem Builds.expands (h : Builds r s.size s t) : s.Expands t := by
  induction h with
  | refl => exact .refl s
  | tail _ hstep ih => exact hstep.expands ih

end Store

/-! ## Building in steps -/

namespace Building

open Store

variable {α β : Type} {r : Recipe} {bound : Nat} {x : Building α} {f : α → Building β} {P : Store → Prop}
  {Q : α → Store → Prop} {R : β → Store → Prop}

/-- Work that is done in steps from every store of a sort, and what holds of its result and the store after it. -/
def Leads (r : Recipe) (bound : Nat) (P : Store → Prop) (work : Building α) (Q : α → Store → Prop) : Prop :=
  ∀ s, bound ≤ s.size → P s → Builds r bound s (work s).2 ∧ ∀ a, (work s).1 = .ok a → Q a (work s).2

theorem leads_pure {a : α} (h : ∀ s, P s → Q a s) : Leads r bound P (pure a) Q :=
  fun s _ hs => ⟨.refl, fun _ ha => by cases ha; exact h s hs⟩

theorem leads_read {work : Store → Attempt α} (h : ∀ s a, P s → work s = .ok a → Q a s) :
    Leads r bound P (read work) Q :=
  fun s _ hs => ⟨.refl, fun a ha => h s a hs ha⟩

theorem leads_add {o : Object} {Q : ObjectId → Store → Prop}
    (h : ∀ s, bound ≤ s.size → P s → BuildStep r bound s (s.add o).2 ∧ Q s.size (s.add o).2) :
    Leads r bound P (add o) Q :=
  fun s hsize hs => ⟨.single (h s hsize hs).1, fun _ ha => by cases ha; exact (h s hsize hs).2⟩

theorem leads_update {work : Store → Store} {Q : Unit → Store → Prop}
    (h : ∀ s, bound ≤ s.size → P s → BuildStep r bound s (work s) ∧ Q () (work s)) : Leads r bound P (update work) Q :=
  fun s hsize hs => ⟨.single (h s hsize hs).1, fun _ _ => (h s hsize hs).2⟩

theorem leads_change {work : Store → Attempt Change} {Q : Unit → Store → Prop}
    (h : ∀ s c, P s → work s = .ok c → BuildStep r bound s (s.apply c) ∧ Q () (s.apply c)) :
    Leads r bound P (change work) Q := by
  intro s _ hs
  rw [change]
  cases hc : work s with
  | ok c => exact ⟨.single (h s c hs hc).1, fun _ _ => (h s c hs hc).2⟩
  | error failure => exact ⟨.refl, fun _ ha => by cases ha⟩

theorem Leads.bind (hx : Leads r bound P x Q) (hf : ∀ a, Leads r bound (Q a) (f a) R) :
    Leads r bound P (x >>= f) R := by
  intro s hsize hs
  obtain ⟨hsteps, hq⟩ := hx s hsize hs
  rcases hrun : x s with ⟨outcome, t⟩
  rw [hrun] at hsteps hq
  cases outcome with
  | error failure =>
    rw [bind_error hrun]
    exact ⟨hsteps, fun _ h => by cases h⟩
  | ok a =>
    rw [bind_ok hrun]
    obtain ⟨hsteps', hr⟩ := hf a t (Nat.le_trans hsize hsteps.size_le) (hq a rfl)
    exact ⟨hsteps.trans hsteps', hr⟩

theorem Leads.forM {f : α → Building Unit} (hf : ∀ a, Leads r bound P (f a) fun _ => P) (as : List α) :
    Leads r bound P (as.forM f) fun _ => P := by
  induction as with
  | nil => exact leads_pure fun _ h => h
  | cons a as ih => exact (hf a).bind fun _ => ih

/-- Work that fails and is forgotten has been done in steps all the same, or not at all. -/
theorem Leads.forgetting (hx : Leads r bound P x Q) : Leads r bound P x.forgetting Q := by
  intro s hsize hs
  obtain ⟨hsteps, hq⟩ := hx s hsize hs
  rcases hrun : x s with ⟨outcome, t⟩
  rw [hrun] at hsteps hq
  cases outcome with
  | ok a =>
    rw [forgetting_ok hrun]
    exact ⟨hsteps, hq⟩
  | error failure =>
    obtain ⟨u, hforget, rfl | rfl, _⟩ := forgetting_error hrun
    · rw [hforget]
      exact ⟨.refl, fun _ h => by cases h⟩
    · rw [hforget]
      exact ⟨hsteps, fun _ h => by cases h⟩

end Building

namespace Store

open Building

variable {s t : Store} {r : Recipe} {bound : Nat}

/-- A new object of a store. -/
def IsNew (bound : Nat) (id : ObjectId) (s : Store) : Prop := bound ≤ id ∧ id < s.size

theorem isNew_add (h : bound ≤ s.size) (o : Object) : IsNew bound s.size (s.add o).2 :=
  ⟨h, by rw [size_add]; exact Nat.lt_succ_self _⟩

theorem IsNew.add {id : ObjectId} (h : IsNew bound id s) (o : Object) : IsNew bound id (s.add o).2 :=
  ⟨h.1, by rw [size_add]; exact Nat.lt_succ_of_lt h.2⟩

theorem IsNew.modify {id : ObjectId} (h : IsNew bound id s) (i : ObjectId) (change : Cell → Cell) :
    IsNew bound id (s.modify i change) :=
  ⟨h.1, by rw [size_modify]; exact h.2⟩

theorem leads_place {record : ObjectId} {slot : Text} {arity : Value} (checked : SlotValue) :
    Leads r bound
      (fun s => IsNew bound record s ∧ s.checkSlot r.plan.kind slot arity (r.input.read slot) = .ok checked)
      (place checked) fun value s => IsNew bound record s ∧ Prepared r slot arity value s := by
  cases checked with
  | one v => exact leads_pure fun s hs => ⟨hs.1, .inl hs.2⟩
  | many values =>
    have hadd : Leads r bound
        (fun s => IsNew bound record s ∧ s.checkSlot r.plan.kind slot arity (r.input.read slot) = .ok (.many values))
        (Building.add (.list (.ofList values) [] true)) fun row s => IsNew bound record s ∧ row < s.size :=
      leads_add fun s _ hs => ⟨.row hs.2, hs.1.add _, by rw [size_add]; exact Nat.lt_succ_self _⟩
    exact hadd.bind fun row => leads_pure fun s hs => ⟨hs.1, .inr ⟨row, hs.2, rfl⟩⟩

theorem leads_fillSlot (record : ObjectId) (slot : Text) (arity : Value) :
    Leads r bound (IsNew bound record) (fillSlot r.plan r.input record slot arity) fun _ => IsNew bound record := by
  refine (leads_read fun s checked hs hcheck => ⟨hs, hcheck⟩).bind fun checked =>
    (leads_place checked).bind fun value => leads_change fun s c hs hc => ?_
  have hassign := assigns_of_assignment (Attempt.ofMisuse_eq_ok hc)
  exact ⟨.assign hs.1.1 hs.2 hassign, hs.1.modify ..⟩

theorem leads_makeSlots (r : Recipe) (bound : Nat) :
    Leads r bound (fun _ => True) (makeSlots r.plan r.input) fun record => IsNew bound record := by
  rw [makeSlots_def]
  split
  · exact leads_read fun _ _ _ h => by cases h
  · have hadd : Leads r bound (fun _ => True) (Building.add (.ofMembers [])) fun record => IsNew bound record :=
      leads_add fun s hsize _ => ⟨.record s, isNew_add hsize _⟩
    have hseal : ∀ record, Leads r bound (IsNew bound record)
        (Building.update fun s => s.modify record fun c => { c with object := sealRecord c.object })
        fun _ => IsNew bound record := fun record => leads_update fun s _ hs => ⟨.sealing hs.1, hs.modify _ _⟩
    refine hadd.bind fun record => (Leads.forM (P := IsNew bound record) (fun entry => ?_) _).bind fun _ => ?_
    · exact leads_fillSlot record entry.1 entry.2
    · exact (hseal record).bind fun _ => leads_pure fun _ hs => hs

theorem leads_attach (n : Node) : Leads r bound (r.Makes · n) (attach r.plan n) fun id _ => bound ≤ id := by
  refine (leads_read (Q := fun _ s => r.Makes s n) fun s _ hs _ => hs).bind fun children =>
    (leads_add (Q := fun id _ => bound ≤ id) fun s hsize hs => ⟨.node hs, hsize⟩).bind fun id => ?_
  refine (Leads.forM (fun child => leads_change fun s c hid hc => ⟨.link hc, hid⟩) children).bind fun _ => ?_
  exact leads_pure fun _ hid => hid

/-- Making a node is done in steps, and the node is new. -/
theorem leads_create (v : Variant) (input : Input) (bound : Nat) :
    Leads ⟨v.plan, input, v, []⟩ bound (fun _ => True) (create v input) fun id _ => bound ≤ id := by
  rw [create_def]
  split
  · exact leads_read fun _ _ _ h => by cases h
  · refine Leads.forgetting ((leads_makeSlots ⟨v.plan, input, v, []⟩ bound).bind fun slots => ?_)
    intro t hsize ht
    exact leads_attach _ t hsize ⟨rfl, rfl, ht.2, fun _ hf => by cases hf⟩

theorem builds_create (v : Variant) (input : Input) (s : Store) :
    Builds ⟨v.plan, input, v, []⟩ s.size s (create v input s).2 :=
  (leads_create v input s.size s (Nat.le_refl _) trivial).1

theorem le_of_create {v : Variant} {input : Input} {id : ObjectId} (h : (create v input s).1 = .ok id) : s.size ≤ id :=
  (leads_create v input s.size s (Nat.le_refl _) trivial).2 id h

/-- Making a source file is done in steps, and the source file is new. -/
theorem leads_addFileBy (p : Plan) (variant : Variant) (assigned : Members Value) (kind : Value) (source : Source)
    (input : Input) (bound : Nat) : Leads ⟨p, input, variant, assigned⟩ bound (fun _ => True)
      (addFileBy p variant assigned kind source input) fun id _ => bound ≤ id := by
  rw [addFileBy_def]
  refine Leads.forgetting ((leads_makeSlots ⟨p, input, variant, assigned⟩ bound).bind fun slots => ?_)
  refine (leads_read (Q := fun endOfFile t => slots < t.size ∧ endOfFile < t.size) fun t id ht hid => ?_).bind
    fun endOfFile t hsize ht => ?_
  · cases hfound : t.endOfFileToken? kind slots with
    | none =>
      rw [hfound] at hid
      cases hid
    | some found =>
      rw [hfound] at hid
      cases hid
      exact ⟨ht.2, lt_size_of_endOfFileToken? hfound⟩
  · refine leads_attach _ t hsize ⟨rfl, rfl, ht.1, fun f hf => ?_⟩
    cases hf
    exact ht.2

theorem builds_addFileBy (p : Plan) (variant : Variant) (assigned : Members Value) (kind : Value) (source : Source)
    (input : Input) (s : Store) :
    Builds ⟨p, input, variant, assigned⟩ s.size s (addFileBy p variant assigned kind source input s).2 :=
  (leads_addFileBy p variant assigned kind source input s.size s (Nat.le_refl _) trivial).1

theorem le_of_addFileBy {p : Plan} {variant : Variant} {assigned : Members Value} {kind : Value} {source : Source}
    {input : Input} {id : ObjectId} (h : (addFileBy p variant assigned kind source input s).1 = .ok id) : s.size ≤ id :=
  (leads_addFileBy p variant assigned kind source input s.size s (Nat.le_refl _) trivial).2 id h

/-- What making a source file of anything that has the members of a grammar comes to. -/
theorem addOtherFile_cases (variant endOfFileKind : Value) (source : Source) (input : Input) (s : Store) :
    (∃ failure, addOtherFile variant endOfFileKind source input s = (.error failure, s)) ∨
      ∃ p kind, s.planFor variant input = .ok p ∧ s.member "kind" variant = .ok kind ∧
        addOtherFile variant endOfFileKind source input s =
          addFileBy p .blank [("variant", variant), ("kind", kind)] endOfFileKind source input s := by
  have hread : ∀ {α : Type} (work : Store → Attempt α), Building.read work s = (work s, s) := fun _ => rfl
  cases hplan : s.planFor variant input with
  | error failure => exact .inl ⟨failure, by rw [addOtherFile_def, bind_error ((hread _).trans (by rw [hplan]))]⟩
  | ok p =>
    rw [addOtherFile_def, bind_ok ((hread _).trans (by rw [hplan]))]
    cases hkind : s.member "kind" variant with
    | error misuse => exact .inl ⟨.misuse misuse, by rw [bind_error ((hread _).trans (by rw [hkind]; rfl))]⟩
    | ok kind => exact .inr ⟨p, kind, rfl, rfl, bind_ok ((hread _).trans (by rw [hkind]; rfl))⟩

theorem expands_addOtherFile (variant endOfFileKind : Value) (source : Source) (input : Input) (s : Store) :
    s.Expands (addOtherFile variant endOfFileKind source input s).2 := by
  rcases addOtherFile_cases variant endOfFileKind source input s with ⟨failure, h⟩ | ⟨p, kind, -, -, h⟩
  · rw [h]
    exact .refl s
  · rw [h]
    exact (builds_addFileBy ..).expands

theorem le_of_addOtherFile {variant endOfFileKind : Value} {source : Source} {input : Input} {id : ObjectId}
    (hid : (addOtherFile variant endOfFileKind source input s).1 = .ok id) : s.size ≤ id := by
  rcases addOtherFile_cases variant endOfFileKind source input s with ⟨failure, h⟩ | ⟨p, kind, -, -, h⟩
  · rw [h] at hid
    cases hid
  · rw [h] at hid
    exact le_of_addFileBy hid

end Store

end LosslessSyntax
