import LosslessSyntax.Proofs.Containment
import LosslessSyntax.Proofs.Decoding

/-!
# Stores stay contained

No operation puts a reference into a store that leads out of it: what is put into slots has been found in the store, and
a grammar refers to its own objects and to what was listed in its definition.

* `Store.Contained.assigns`: by assignments;
* `Store.Builds.contained`: by the steps of building, and so by nodes and source files;
* `Store.Contained.addGrammar`: by defining a grammar.
-/

namespace LosslessSyntax

namespace Store

variable {s t : Store} {id : ObjectId}

/-! ## Changes -/

theorem Contained.add (h : s.Contained) {o : Object} (ho : o.HoldsWithin (s.size + 1)) : (s.add o).2.Contained := by
  have hle : s.size ≤ s.size + 1 := Nat.le_succ _
  refine ⟨fun g => ?_, fun {id b} hb => ?_, fun {id o'} ho' => ?_⟩ <;> rw [size_add]
  · exact Nat.lt_of_lt_of_le (h.ground g) hle
  · rw [Store.base?, cell?_add] at hb
    split at hb
    · obtain ⟨g, rfl⟩ := Object.base?_ground hb
      exact Nat.lt_of_lt_of_le (h.ground g) hle
    · exact Nat.lt_of_lt_of_le (h.base hb) hle
  · rw [Store.object?, cell?_add] at ho'
    split at ho'
    · cases ho'
      exact ho
    · exact (h.holds ho').mono hle

theorem Contained.addAll (h : s.Contained) {os : List Object} (hos : ∀ o ∈ os, o.HoldsWithin (s.size + os.length)) :
    (s.addAll os).Contained := by
  have hle : s.size ≤ s.size + os.length := Nat.le_add_right ..
  refine ⟨fun g => ?_, fun {id b} hb => ?_, fun {id o} ho => ?_⟩ <;> rw [size_addAll]
  · exact Nat.lt_of_lt_of_le (h.ground g) hle
  · rw [Store.base?, cell?_addAll] at hb
    split at hb
    · exact Nat.lt_of_lt_of_le (h.base hb) hle
    · obtain ⟨c, hc, hcb⟩ := Option.bind_eq_some_iff.mp hb
      obtain ⟨o, _, rfl⟩ := Option.map_eq_some_iff.mp hc
      obtain ⟨g, rfl⟩ := Object.base?_ground hcb
      exact Nat.lt_of_lt_of_le (h.ground g) hle
  · rw [Store.object?, cell?_addAll] at ho
    split at ho
    · exact (h.holds ho).mono hle
    · obtain ⟨c, hc, rfl⟩ := Option.map_eq_some_iff.mp ho
      obtain ⟨o, hmem, rfl⟩ := Option.map_eq_some_iff.mp hc
      exact hos o (List.mem_of_getElem? hmem)

/-- A change of one object, after which it still extends and holds objects of the store. -/
theorem Contained.modify (h : s.Contained) {i : ObjectId} {change : Cell → Cell}
    (hchange : ∀ c, s.cell? i = some c →
      (∀ b, (change c).base = some b → b < s.size) ∧ (change c).object.HoldsWithin s.size) :
    (s.modify i change).Contained := by
  refine ⟨fun g => ?_, fun {id b} hb => ?_, fun {id o} ho => ?_⟩ <;> rw [size_modify]
  · exact h.ground g
  · rw [Store.base?, cell?_modify] at hb
    split at hb
    · rename_i heq
      subst heq
      obtain ⟨c', hc', hcb⟩ := Option.bind_eq_some_iff.mp hb
      obtain ⟨c, hc, rfl⟩ := Option.map_eq_some_iff.mp hc'
      exact (hchange c hc).1 b hcb
    · exact h.base hb
  · rw [Store.object?, cell?_modify] at ho
    split at ho
    · rename_i heq
      subst heq
      obtain ⟨c', hc', rfl⟩ := Option.map_eq_some_iff.mp ho
      obtain ⟨c, hc, rfl⟩ := Option.map_eq_some_iff.mp hc'
      exact (hchange c hc).2
    · exact h.holds ho

theorem Contained.base_cell (h : s.Contained) {c : Cell} (hc : s.cell? id = some c) {b : ObjectId}
    (hb : c.base = some b) : b < s.size := h.base (by rw [Store.base?, hc]; exact hb)

theorem Contained.holds_cell (h : s.Contained) {c : Cell} (hc : s.cell? id = some c) : c.object.HoldsWithin s.size :=
  h.holds (by rw [Store.object?, hc]; rfl)

/-- A change of links. -/
theorem Contained.relink (h : s.Contained) {i : ObjectId} {change : Cell → Cell}
    (hobject : ∀ c, (change c).object = c.object) (hbase : ∀ c, (change c).base = c.base) :
    (s.modify i change).Contained :=
  h.modify fun c hc => ⟨fun b hb => h.base_cell hc (by rw [← hbase c, hb]), by rw [hobject c]; exact h.holds_cell hc⟩

end Store

theorem Store.resized_eq_ok {s : Store} {items items' : Sequence} {length : Value}
    (h : s.resized items length = .ok items') : ∃ count, items' = items.resize count := by
  obtain ⟨number, _, h⟩ := Attempt.bind_eq_ok h
  cases hcount : number.toNat? with
  | none =>
    rw [hcount] at h
    cases h
  | some count =>
    rw [hcount] at h
    dsimp only at h
    split at h
    · cases h
      exact ⟨count, rfl⟩
    · cases h

namespace Object.HoldsWithin

variable {size : Nat} {o o' : Object} {name : Text} {value : Value}

/-- An object that is no error has no stack text to hide. -/
theorem of_members (h : o.allMembers.Within size) (ho : ∀ named hidden m, o ≠ .error named hidden m) :
    o.HoldsWithin size := ⟨h, fun heq => absurd heq (ho _ _ _)⟩

theorem registry (r : Registry) : (Object.registry r).HoldsWithin size := by
  refine of_members (fun entry hentry => ?_) fun _ _ _ heq => by cases heq
  simp only [Object.allMembers, Object.hidden, Object.listed, Registry.members, List.nil_append, List.mem_cons,
    List.not_mem_nil, or_false] at hentry
  rcases hentry with rfl | rfl | rfl | rfl <;> trivial

theorem set_error {named : Option Text} {hidden m : Members Value} (h : (Object.error named hidden m).HoldsWithin size)
    (name : Text) (hvalue : value.Within size) :
    (if hidden.has name then Object.error named (hidden.set name value) m
      else Object.error named hidden (m.set name value)).HoldsWithin size := by
  split
  · refine ⟨(h.members.left.set name hvalue).append h.members.right, fun heq => ?_⟩
    cases heq
    rw [← Members.isSome_get?, Members.get?_set]
    split
    · rfl
    · rw [Members.isSome_get?]
      exact h.stack rfl
  · exact ⟨h.members.left.append (h.members.right.set name hvalue), fun heq => by cases heq; exact h.stack rfl⟩

theorem withStack (h : o.HoldsWithin size) (hvalue : value.Within size) : (o.withStack value).HoldsWithin size := by
  cases o with
  | error named hidden m => exact h.set_error "stack" hvalue
  | _ => exact h

theorem setOn {s : Store} (h : o.HoldsWithin size) (hvalue : value.Within size)
    (hset : s.setOn o name value = .ok o') : o'.HoldsWithin size := by
  cases o with
  | record m isSealed =>
    cases isSealed with
    | true => cases hset
    | false =>
      cases hset
      exact .of_members (h.members.set name hvalue) fun _ _ _ heq => by cases heq
  | list items m isSealed =>
    have hlength : ∀ items : Sequence, Members.Within [("length", .ofNat items.length)] size := by
      intro items entry hentry
      cases List.mem_singleton.mp hentry
      trivial
    have hitems : items.members.Within size := h.members.right.left
    have hm : m.Within size := h.members.right.right
    have hlist : ∀ {items' : Sequence} {m' : Members Value}, items'.members.Within size → m'.Within size →
        (Object.list items' m' false).HoldsWithin size := fun hitems' hm' =>
      .of_members ((hlength _).append (hitems'.append hm')) fun _ _ _ heq => by cases heq
    cases isSealed with
    | true => cases hset
    | false =>
      rw [Store.setOn] at hset
      split at hset
      · cases hset
        refine hlist (.ofSequence fun v hv => ?_) hm
        rcases Sequence.mem_values_set hv with rfl | hv
        · exact hvalue
        · exact hitems.values v hv
      · split at hset
        · obtain ⟨items', hresized, hset⟩ := Attempt.bind_eq_ok hset
          cases hset
          obtain ⟨count, rfl⟩ := Store.resized_eq_ok hresized
          refine hlist (.ofSequence fun v hv => hitems.values v ?_) hm
          obtain ⟨placed, hplaced, rfl⟩ := List.mem_map.mp hv
          exact List.mem_map.mpr ⟨placed, (List.mem_filter.mp hplaced).1, rfl⟩
        · cases hset
          exact hlist hitems (hm.set name hvalue)
  | error named hidden m =>
    cases hset
    exact h.set_error name hvalue
  | node n =>
    cases hset
    exact .of_members (h.members.left.append (h.members.right.set name hvalue)) fun _ _ _ heq => by cases heq
  | logger m =>
    cases hset
    exact .of_members (h.members.set name hvalue) fun _ _ _ heq => by cases heq
  | _ => cases hset

end Object.HoldsWithin

namespace Store

variable {s t : Store} {r : Recipe} {bound : Nat}

theorem Contained.assigns (h : s.Contained) {id : ObjectId} {name : Text} {value : Value} {c : Change}
    (hvalue : value.Within s.size) (hc : s.Assigns id name value c) : (s.apply c).Contained := by
  cases hc with
  | same => exact h.relink (fun _ => rfl) fun _ => rfl
  | @base base heq _ =>
    refine h.modify fun cell hcell => ⟨fun b (hb : base = some b) => ?_, h.holds_cell (c := cell) hcell⟩
    rw [← heq, hb] at hvalue
    exact hvalue
  | member ho hset =>
    exact h.modify fun cell hcell => ⟨fun b hb => h.base_cell hcell hb, (h.holds ho).setOn hvalue hset⟩
  | stack ho =>
    exact h.modify fun cell hcell => ⟨fun b hb => h.base_cell hcell hb, (h.holds ho).withStack hvalue⟩

theorem within_of_isElement {v : Value} (h : s.isElement v = true) : v.Within s.size := by
  obtain ⟨id, rfl, hid⟩ := isElement_object h
  exact hid

theorem Prepared.within {slot : Text} {arity value : Value} (h : Prepared r slot arity value s) :
    value.Within s.size := by
  rcases h with hcheck | ⟨row, hrow, rfl⟩
  · rcases checkSlot_eq_ok hcheck with heq | ⟨v, heq, _, hv, _⟩ | ⟨vs, heq, _⟩
    · cases heq
      trivial
    · cases heq
      exact within_of_isElement hv
    · cases heq
  · exact hrow

end Store

namespace Recipe

/-- A recipe that refers to none but the first so many objects. -/
structure Known (r : Recipe) (size : Nat) : Prop where
  variant : r.variant.self ≤ size
  assigned : r.assigned.Within size

variable {s : Store} {r : Recipe}

theorem Known.mono {size size' : Nat} (h : r.Known size) (hle : size ≤ size') : r.Known size' :=
  ⟨Nat.le_trans h.variant hle, fun entry hentry => (h.assigned entry hentry).mono hle⟩

theorem Makes.holdsWithin {n : Node} (h : r.Makes s n) (hr : r.Known s.size) :
    (Object.node n).HoldsWithin (s.size + 1) := by
  have hmade : n.madeWith.Within (s.size + 1) := by
    have hself : n.variant.self < s.size + 1 := by rw [h.variant]; exact Nat.lt_succ_of_le hr.variant
    have hslots : n.slots < s.size + 1 := Nat.lt_succ_of_lt h.slots
    intro entry hentry
    rw [Node.madeWith] at hentry
    cases hfile : n.file with
    | none =>
      simp only [hfile, List.mem_cons, List.not_mem_nil, or_false] at hentry
      rcases hentry with rfl | rfl | rfl | rfl
      exacts [hself, hslots, trivial, trivial]
    | some f =>
      simp only [hfile, List.mem_cons, List.not_mem_nil, or_false] at hentry
      rcases hentry with rfl | rfl | rfl | rfl | rfl | rfl
      exacts [hself, hslots, trivial, trivial, trivial, Nat.lt_succ_of_lt (h.file f hfile)]
  have hassigned : n.assigned.Within (s.size + 1) := by
    rw [h.assigned]
    exact (hr.mono (Nat.le_succ _)).assigned
  exact .of_members (hmade.append hassigned) fun _ _ _ heq => by cases heq

end Recipe

namespace Store

variable {s t : Store} {r : Recipe} {bound : Nat}

theorem BuildStep.contained (hs : s.Contained) (hr : r.Known s.size) (h : BuildStep r bound s t) : t.Contained := by
  cases h with
  | record => exact hs.add (.of_members (fun _ h => by cases h) fun _ _ _ heq => by cases heq)
  | row hcheck =>
    refine hs.add (.of_members ?_ fun _ _ _ heq => by cases heq)
    rcases checkSlot_eq_ok hcheck with heq | ⟨v, heq, _⟩ | ⟨vs, heq, hvs⟩ <;> cases heq
    refine Members.Within.append (fun entry hentry => ?_) (Members.Within.append (.ofSequence fun v hv => ?_) ?_)
    · cases List.mem_singleton.mp hentry
      trivial
    · rw [Sequence.values_ofList] at hv
      exact (within_of_isElement (hvs v hv)).mono (Nat.le_succ _)
    · exact fun _ h => by cases h
  | assign _ hvalue hc => exact hs.assigns hvalue.within hc
  | sealing =>
    refine hs.modify fun c hc => ⟨fun b hb => hs.base_cell hc hb, ?_⟩
    have hholds := hs.holds_cell hc
    generalize c.object = o at hholds
    cases o with
    | record m isSealed => exact .of_members hholds.members fun _ _ _ heq => by cases heq
    | _ => exact hholds
  | node hmakes => exact hs.add (hmakes.holdsWithin hr)
  | link hlink =>
    rename_i child c
    cases child with
    | object id =>
      cases hlink
      show (s.modify id (if s.isNode id then _ else _)).Contained
      split <;> exact hs.relink (fun _ => rfl) fun _ => rfl
    | _ => cases hlink

theorem Builds.contained (hs : s.Contained) (hr : r.Known s.size) (h : Builds r bound s t) : t.Contained := by
  induction h with
  | refl => exact hs
  | tail hsteps hstep ih => exact hstep.contained ih (hr.mono (Builds.size_le hsteps))

/-! ## Nodes and files -/

theorem Contained.create (hs : s.Contained) {v : Variant} (hv : v.self < s.size) (input : Input) :
    (Store.create v input s).2.Contained :=
  (builds_create v input s).contained hs ⟨Nat.le_of_lt hv, fun _ h => by cases h⟩

theorem Contained.addFile (hs : s.Contained) {v : Variant} (hv : v.self < s.size) (kind : Value) (source : Source)
    (input : Input) : (Store.addFile v kind source input s).2.Contained :=
  (builds_addFileBy v.plan v [] kind source input s).contained hs ⟨Nat.le_of_lt hv, fun _ h => by cases h⟩

theorem Contained.member (hs : s.Contained) {name : Text} (hname : name ≠ "parent") {v w : Value}
    (h : s.member name v = .ok w) : w.Within s.size := by
  have hundeclared := undeclared_within (hs.ground .record) name
  cases v with
  | object id =>
    cases h
    exact hs.lookup id hname
  | text t =>
    cases h
    split
    · trivial
    · cases ((Members.index? name).bind (t[·]?)) with
      | some u => trivial
      | none =>
        simp only [Option.elim_none, undeclaredInText]
        split
        · trivial
        · exact hundeclared
  | number n =>
    cases h
    rw [undeclaredInNumber]
    split
    · trivial
    · exact hundeclared
  | operation own =>
    cases h
    split
    · trivial
    · split
      · trivial
      · exact hundeclared
  | undefined | null => cases h
  | bool b | bigint n =>
    cases h
    exact hundeclared

theorem Contained.addOtherFile (hs : s.Contained) {variant : Value} (hvariant : variant.Within s.size) (kind : Value)
    (source : Source) (input : Input) : (Store.addOtherFile variant kind source input s).2.Contained := by
  rcases addOtherFile_cases variant kind source input s with ⟨failure, h⟩ | ⟨p, own, _, hkind, h⟩
  · rw [h]
    exact hs
  · rw [h]
    refine (builds_addFileBy ..).contained hs ⟨Nat.zero_le _, fun entry hentry => ?_⟩
    simp only [List.mem_cons, List.not_mem_nil, or_false] at hentry
    rcases hentry with rfl | rfl
    exacts [hvariant, hs.member (by decide) hkind]

theorem Contained.recordRoot (hs : s.Contained) (root : ObjectId) (nodes : List ObjectId) :
    (s.recordRoot root nodes).Contained := by
  induction nodes generalizing s with
  | nil => exact hs
  | cons id nodes ih => exact ih (hs.relink (fun _ => rfl) fun _ => rfl)

theorem Contained.assignTo (hs : s.Contained) {id : ObjectId} {name : Text} {value : Value}
    (hvalue : value.Within s.size) (h : s.assignTo id name value = .ok t) : t.Contained := by
  obtain ⟨c, hc, rfl⟩ := assigns_of_assignTo h
  exact hs.assigns hvalue hc

end Store

/-! ## Grammars -/

namespace Checked

variable {α β : Type} {x : Checked α} {P : α → Prop} {Q : β → Prop}

/-- What holds of a value, if decoding gives one. -/
def Gives (x : Checked α) (P : α → Prop) : Prop := ∀ a, x.run = .ok (.ok a) → P a

theorem gives_true (x : Checked α) : Gives x fun _ => True := fun _ _ => trivial

theorem gives_pure {a : α} (h : P a) : Gives (pure a) P := fun _ ha => by cases ha; exact h

theorem gives_reject (problem : Problem) : Gives (reject problem) P := fun _ ha => by cases ha

theorem Gives.bind {f : α → Checked β} (hx : Gives x P) (hf : ∀ a, P a → Gives (f a) Q) : Gives (x >>= f) Q := by
  intro b hb
  rcases x with m | issues | a
  · cases hb
  · cases hb
  · exact hf a (hx a rfl) b hb

theorem Gives.both {y : Checked β} (hx : Gives x P) (hy : Gives y Q) :
    Gives (Checked.both x y) fun ab => P ab.1 ∧ Q ab.2 := by
  intro ab hab
  rcases x with m | xs | a
  · cases hab
  · rcases y with m | ys | b <;> cases hab
  · rcases y with m | ys | b <;> cases hab
    exact ⟨hx a rfl, hy b rfl⟩

theorem Gives.all {xs : List (Checked α)} (h : ∀ x ∈ xs, Gives x P) :
    Gives (Checked.all xs) fun as => ∀ a ∈ as, P a := by
  induction xs with
  | nil => exact gives_pure fun _ ha => by cases ha
  | cons x xs ih =>
    refine Gives.bind ((h x List.mem_cons_self).both (ih fun y hy => h y (List.mem_cons_of_mem _ hy))) fun ab hab => ?_
    refine gives_pure fun a ha => ?_
    rcases List.mem_cons.mp ha with rfl | ha
    · exact hab.1
    · exact hab.2 a ha

theorem Gives.under (name : Text) (h : Gives x P) : Gives (Checked.under name x) P := by
  intro a ha
  rcases x with m | issues | b
  · cases ha
  · cases ha
  · cases ha
    exact h a rfl

end Checked

namespace Decoder

open Checked

variable {α : Type} {s : Store} {P : α → Prop}

theorem gives_wrongType (expected : Text) (v : Value) : Gives (wrongType expected s v) P := by
  intro a ha
  rw [wrongType] at ha
  cases hname : s.typeName v <;> rw [hname] at ha <;> cases ha

theorem gives_option {options : List (Text × α)} (h : ∀ entry ∈ options, P entry.2) (v : Value) :
    Gives (option options s v) P := by
  cases v with
  | text t =>
    rw [option]
    cases hlookup : options.lookup t with
    | none => exact gives_reject _
    | some a =>
      obtain ⟨before, after, heq, _⟩ := List.lookup_eq_some_iff.mp hlookup
      exact gives_pure (h (t, a) (by simp [heq]))
  | _ => exact gives_reject _

theorem gives_table (key : Text → Bool) {value : Decoder α} (h : ∀ v, Gives (value s v) P) (v : Value) :
    Gives (table key value s v) fun m => ∀ entry ∈ m, entry.1 ≠ baseName ∧ P entry.2 := by
  rw [table]
  split
  · refine Gives.all fun x hx => ?_
    obtain ⟨entry, hentry, rfl⟩ := List.mem_map.mp hx
    have hne : entry.1 ≠ baseName := of_decide_eq_true (List.mem_filter.mp hentry).2
    refine Gives.under _ ?_
    split
    · exact (h _).bind fun a ha => gives_pure ⟨hne, ha⟩
    · exact gives_reject _
  · exact gives_wrongType _ _

end Decoder

/-- A definition whose layouts refer to none but the first so many objects. -/
def Definition.Within (d : Definition) (size : Nat) : Prop := ∀ node ∈ d.nodes, node.2.Within size

namespace Store

open Checked

variable {s t : Store} {d : Definition} {v : Value}

/-- A checked definition has one of two words for all that is declared of slots, and no slot with the name of the
base. -/
theorem layouts_ofValue (h : Definition.ofValue s v = .ok d) : ∀ node ∈ d.nodes, ∀ entry ∈ node.2,
    entry.1 ≠ baseName ∧ (entry.2 = Layout.one ∨ entry.2 = Layout.many) := by
  have hwords : ∀ entry ∈ Definition.arityWords, entry.2 = Layout.one ∨ entry.2 = Layout.many := by decide
  have hgives : Gives (Definition.decoder s v) fun d => ∀ node ∈ d.nodes, ∀ entry ∈ node.2,
      entry.1 ≠ baseName ∧ (entry.2 = Layout.one ∨ entry.2 = Layout.many) := by
    refine (gives_true _).bind fun read _ => ?_
    have hlayout : ∀ v, Gives (Decoder.table isSlotName (Decoder.option Definition.arityWords) s v) fun layout =>
        ∀ entry ∈ layout, entry.1 ≠ baseName ∧ (entry.2 = Layout.one ∨ entry.2 = Layout.many) :=
      Decoder.gives_table (P := fun arity => arity = Layout.one ∨ arity = Layout.many) isSlotName
        (Decoder.gives_option hwords)
    have hnodes := (Decoder.gives_table (· ≠ []) hlayout (read "nodes")).under "nodes"
    exact (((gives_true _).both hnodes).both ((gives_true _).both (gives_true _))).bind fun parts hparts =>
      gives_pure fun node hnode => (hparts.1.2 node hnode).2
  obtain ⟨outcome, hrun, h⟩ := Attempt.bind_eq_ok h
  cases outcome with
  | error issues => cases h
  | ok d' =>
    cases h
    exact hgives d (Attempt.ofMisuse_eq_ok hrun)

theorem within_ofValue (h : Definition.ofValue s v = .ok d) : d.Within s.size := by
  intro node hnode entry hentry
  rcases (layouts_ofValue h node hnode entry hentry).2 with harity | harity <;> rw [harity] <;> trivial

/-- A definition that is taken as it stands declares what some value lists. -/
theorem Contained.readTrusting (hs : s.Contained) (h : Definition.readTrusting s v = .ok d) : d.Within s.size := by
  obtain ⟨tokens, _, h⟩ := Attempt.bind_eq_ok h
  obtain ⟨_, _, h⟩ := Attempt.bind_eq_ok h
  obtain ⟨_, _, h⟩ := Attempt.bind_eq_ok h
  obtain ⟨entries, _, h⟩ := Attempt.bind_eq_ok h
  obtain ⟨nodes, hnodes, h⟩ := Attempt.bind_eq_ok h
  obtain ⟨_, _, h⟩ := Attempt.bind_eq_ok h
  obtain ⟨_, _, h⟩ := Attempt.bind_eq_ok h
  cases h
  intro node hnode
  obtain ⟨⟨name, value⟩, _, hentry⟩ := Attempt.exists_of_mapM hnodes hnode
  obtain ⟨layout, hlayout, hentry⟩ := Attempt.bind_eq_ok hentry
  cases hentry
  obtain ⟨listed, hlisted, hlayout⟩ := Attempt.bind_eq_ok hlayout
  obtain ⟨_, _, hlayout⟩ := Attempt.bind_eq_ok hlayout
  cases hlayout
  rw [Definition.entriesOf] at hlisted
  split at hlisted
  · cases hlisted
  · cases hlisted
    exact hs.listed value

/-- The variants of a definition and their layouts stand one after the other. -/
theorem within_variantsOf {self : Nat} {w : Variant} (hd : d.Within self) (h : w ∈ Grammar.variantsOf self d) :
    w.self + 1 < self + 3 + 2 * d.nodes.length ∧ w.layout.Within self := by
  obtain ⟨⟨node, kind⟩, hnode, rfl⟩ := List.mem_map.mp h
  obtain ⟨hle, hlt, hget⟩ := List.mem_zipIdx hnode
  refine ⟨?_, hd node (List.fst_mem_of_mem_zipIdx hnode)⟩
  show (self + 3 + 2 * kind + 1 : Nat) < self + 3 + 2 * d.nodes.length
  omega

theorem Contained.addGrammar (hs : s.Contained) {g : Grammar} (hd : d.Within s.size) (h : s.addGrammar d = .ok (g, t)) :
    t.Contained := by
  obtain ⟨g', hdefine, h⟩ := Attempt.bind_eq_ok h
  cases h
  obtain ⟨_, _, hvariants, hself, hsource⟩ := Grammar.define_ok hdefine
  have hlength : g.objects.length = 3 + 2 * d.nodes.length := by
    have hpairs : ∀ ws : List Variant,
        (ws.flatMap fun w => [Object.variant w, .record w.layout true]).length = 2 * ws.length := by
      intro ws
      induction ws with
      | nil => rfl
      | cons w ws ih =>
        simp only [List.flatMap_cons, List.length_append, ih, List.length_cons, List.length_nil]
        omega
    rw [Grammar.objects, List.length_cons, List.length_cons, List.length_cons, hpairs, hvariants, Grammar.variantsOf,
      List.length_map, List.length_zipIdx]
    omega
  have hwithin : ∀ w ∈ g.variants, w.self + 1 < s.size + g.objects.length ∧ w.layout.Within s.size := by
    intro w hw
    rw [hvariants] at hw
    rw [hlength, ← Nat.add_assoc]
    exact within_variantsOf hd hw
  have hsourceFile := (hwithin _ hsource).1
  refine hs.addAll fun o ho => ?_
  rw [Grammar.objects] at ho
  simp only [List.mem_cons, List.mem_flatMap, List.not_mem_nil, or_false] at ho
  rcases ho with rfl | rfl | rfl | ⟨w, hw, rfl | rfl⟩
  · refine .of_members (fun entry hentry => ?_) fun _ _ _ heq => by cases heq
    simp only [Object.allMembers, Object.hidden, Object.listed, Grammar.members, List.nil_append, List.mem_cons,
      List.not_mem_nil, or_false, hself] at hentry
    rcases hentry with rfl | rfl | rfl | rfl | rfl | rfl | rfl | rfl
    · show s.size + 1 < _
      omega
    · show s.size + 2 < _
      omega
    · exact Nat.lt_of_succ_lt hsourceFile
    all_goals trivial
  · exact .registry _
  · exact .registry _
  · refine .of_members (fun entry hentry => ?_) fun _ _ _ heq => by cases heq
    simp only [Object.allMembers, Object.hidden, Object.listed, Variant.members, List.nil_append, List.mem_cons,
      List.not_mem_nil, or_false] at hentry
    rcases hentry with rfl | rfl | rfl | rfl
    exacts [trivial, trivial, (hwithin w hw).1, trivial]
  · refine .of_members (fun entry hentry => ?_) fun _ _ _ heq => by cases heq
    exact ((hwithin w hw).2 entry hentry).mono (Nat.le_add_right ..)

end Store

end LosslessSyntax
