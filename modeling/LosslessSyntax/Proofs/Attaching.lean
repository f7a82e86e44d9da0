import LosslessSyntax.Proofs.Filling
import LosslessSyntax.Proofs.Nodes
import LosslessSyntax.Tree.Links

/-!
# Attaching children

A new node is added once its slots are filled, and its children are linked to it. `Store.Grown` says what one call can
do to the links of a store, whether it succeeds or not: some objects that were free are linked to one new object, and
nothing else. `Store.Made` says what a node is that such a call returns: it shows, slot by slot, the children that were
linked to it. `attach_spec` says that attaching comes to one or the other.
-/

namespace LosslessSyntax.Store

variable {s t : Store}

/-- Whether a token is known to belong to a node. -/
def isOwned (s : Store) (id : ObjectId) : Bool := (s.cell? id).any Cell.owned

/-- The source file that is recorded for a node. -/
def recorded? (s : Store) (id : ObjectId) : Option ObjectId := (s.cell? id).bind Cell.root

/-- An object that can be attached to a node: a node that is no source file and has no parent, or anything else that
belongs to no node. -/
def Free (s : Store) (id : ObjectId) : Prop :=
  (s.isNode id = true → s.isSourceFile id = false ∧ s.parent? id = none) ∧ (s.isNode id = false → s.isOwned id = false)

theorem Extends.free_iff (hk : s.Extends t) (hs : s.Grounded) {id : ObjectId} (hid : id < s.size) :
    t.Free id ↔ s.Free id := by
  have hparent : t.parent? id = s.parent? id := by rw [parent?, parent?, hk.cell hid]
  have howned : t.isOwned id = s.isOwned id := by rw [isOwned, isOwned, hk.cell hid]
  rw [Free, Free, hs.isNode_keeps hk.keeps hid, hs.isSourceFile_keeps hk.keeps hid, hparent, howned]

/-! ## Children that can be attached -/

theorem checkChild_object (kind : Value) (slot : Text) {id : ObjectId} (hid : id < s.size) :
    s.checkChild kind slot (.object id) = .ok () ↔ s.Free id := by
  obtain ⟨c, hc⟩ := exists_cell hid
  have hparent : s.parent? id = c.parent := by rw [parent?, hc]; rfl
  have howned : s.isOwned id = c.owned := by rw [isOwned, hc]; rfl
  simp only [checkChild, Value.object?, Option.bind_some, hc, Free, hparent, howned]
  cases s.isNode id with
  | true =>
    cases s.isSourceFile id with
    | true => simp [refuse_eq_error]
    | false =>
      cases c.parent with
      | none => simp [pure, Except.pure]
      | some q => simpa using malformed_ne_ok _ _ _
  | false =>
    cases c.owned with
    | true => simp [refuse_eq_error]
    | false => simp [pure, Except.pure]

/-- Distinct children, none of which has been seen before. -/
def Unseen (seen children : List Value) : Prop := children.Nodup ∧ ∀ child ∈ children, child ∉ seen

theorem unseen_cons {seen rest : List Value} {child : Value} :
    Unseen seen (child :: rest) ↔ child ∉ seen ∧ Unseen (child :: seen) rest := by
  simp only [Unseen, List.nodup_cons, List.mem_cons, forall_eq_or_imp, not_or]
  constructor
  · rintro ⟨⟨hchild, hnodup⟩, hseen, hrest⟩
    exact ⟨hseen, hnodup, fun c hc => ⟨fun heq => hchild (heq ▸ hc), hrest c hc⟩⟩
  · rintro ⟨hseen, hnodup, hrest⟩
    exact ⟨⟨fun hchild => (hrest child hchild).1 rfl, hnodup⟩, hseen, fun c hc => (hrest c hc).2⟩

theorem unseen_append {seen first rest : List Value} :
    Unseen seen (first ++ rest) ↔ Unseen seen first ∧ Unseen (first.reverse ++ seen) rest := by
  induction first generalizing seen with
  | nil => simp [Unseen]
  | cons child first ih =>
    rw [List.cons_append, unseen_cons, unseen_cons, ih, and_assoc, List.reverse_cons, List.append_assoc,
      List.singleton_append]

theorem checkSlotChildren_eq_ok {kind : Value} {slot : Text} {seen children result : List Value} :
    s.checkSlotChildren kind slot seen children = .ok result ↔ result = children.reverse ++ seen ∧
      (∀ child ∈ children, s.checkChild kind slot child = .ok ()) ∧ Unseen seen children := by
  induction children generalizing seen with
  | nil => simp [checkSlotChildren, Attempt.pure_eq_ok, Unseen, eq_comm]
  | cons child rest ih =>
    rw [checkSlotChildren, unseen_cons, List.forall_mem_cons]
    by_cases hseen : child ∈ seen
    · rw [if_pos hseen]
      exact iff_of_false (fun h => by cases h) fun h => h.2.2.1 hseen
    · rw [if_neg hseen]
      cases hcheck : s.checkChild kind slot child with
      | error f => exact iff_of_false (fun h => by cases h) fun h => by cases h.2.1.1
      | ok u =>
        show s.checkSlotChildren kind slot (child :: seen) rest = .ok result ↔ _
        rw [ih, List.reverse_cons, List.append_assoc, List.singleton_append]
        simp only [hseen, not_false_eq_true, true_and]

/-- What is met in the slots of a record, slot by slot. -/
def Met (s : Store) (slots : ObjectId) (met : List (Text × Sequence)) : Prop :=
  ∀ entry ∈ met, s.iterated (s.lookup slots entry.1) = .ok entry.2

/-- The children of the slots that are left pass, given those of the slots before, the last one first. -/
theorem checkSlots_eq_ok {p : Plan} {slots : ObjectId} {names : List Text} {seen result : List Value} :
    (names.foldlM (fun seen slot => do
        let children ← Attempt.ofMisuse (s.iterated (s.lookup slots slot))
        s.checkSlotChildren p.kind slot seen (children.visited 2)) seen : Attempt (List Value)) = .ok result ↔
      ∃ met, met.map Prod.fst = names ∧ s.Met slots met ∧ result = (met.flatMap (·.2.visited 2)).reverse ++ seen ∧
        Unseen seen (met.flatMap (·.2.visited 2)) ∧
        ∀ entry ∈ met, ∀ child ∈ entry.2.visited 2, s.checkChild p.kind entry.1 child = .ok () := by
  induction names generalizing seen with
  | nil =>
    constructor
    · rintro ⟨⟩
      exact ⟨[], rfl, nofun, rfl, ⟨.nil, nofun⟩, nofun⟩
    · rintro ⟨met, hnames, _, rfl, _⟩
      cases List.map_eq_nil_iff.mp hnames
      rfl
  | cons name names ih =>
    rw [List.foldlM_cons]
    constructor
    · intro h
      obtain ⟨seen', hstep, h⟩ := Attempt.bind_eq_ok h
      obtain ⟨q, hq, hcheck⟩ := Attempt.bind_eq_ok hstep
      obtain ⟨rfl, hchecks, hfirst⟩ := checkSlotChildren_eq_ok.mp hcheck
      obtain ⟨met, rfl, hmet, rfl, hrest, hchecks'⟩ := ih.mp h
      refine ⟨(name, q) :: met, rfl, List.forall_mem_cons.mpr ⟨Attempt.ofMisuse_eq_ok hq, hmet⟩, ?_,
        unseen_append.mpr ⟨hfirst, hrest⟩, List.forall_mem_cons.mpr ⟨hchecks, hchecks'⟩⟩
      rw [List.flatMap_cons, List.reverse_append, List.append_assoc]
    · rintro ⟨met, hnames, hmet, rfl, hunseen, hchecks⟩
      obtain ⟨⟨name, q⟩, met, rfl, rfl, rfl⟩ := List.map_eq_cons_iff.mp hnames
      obtain ⟨hq, hmet⟩ := List.forall_mem_cons.mp hmet
      obtain ⟨hcheck, hchecks⟩ := List.forall_mem_cons.mp hchecks
      obtain ⟨hfirst, hrest⟩ := unseen_append.mp hunseen
      rw [hq]
      show (s.checkSlotChildren p.kind name seen (q.visited 2) >>= _) = _
      rw [checkSlotChildren_eq_ok.mpr ⟨rfl, hcheck, hfirst⟩]
      refine ih.mpr ⟨met, rfl, hmet, ?_, hrest, hchecks⟩
      rw [List.flatMap_cons, List.reverse_append, List.append_assoc]

/-- Children can be attached if every slot can be gone through, no child is met twice and each passes its check. -/
theorem attachable_eq_ok {p : Plan} {slots : ObjectId} {children : List Value} :
    s.attachable p slots = .ok children ↔ ∃ met, met.map Prod.fst = p.layout.names ∧ s.Met slots met ∧
      children = met.flatMap (·.2.visited 2) ∧ children.Nodup ∧
      ∀ entry ∈ met, ∀ child ∈ entry.2.visited 2, s.checkChild p.kind entry.1 child = .ok () := by
  rw [attachable]
  constructor
  · intro h
    obtain ⟨seen, hfold, h⟩ := Attempt.bind_eq_ok h
    obtain ⟨met, hnames, hmet, rfl, hunseen, hchecks⟩ := checkSlots_eq_ok.mp hfold
    cases h
    rw [List.append_nil, List.reverse_reverse]
    exact ⟨met, hnames, hmet, rfl, hunseen.1, hchecks⟩
  · rintro ⟨met, hnames, hmet, rfl, hnodup, hchecks⟩
    rw [checkSlots_eq_ok.mpr ⟨met, hnames, hmet, rfl, ⟨hnodup, fun _ _ => List.not_mem_nil⟩, hchecks⟩]
    show Except.ok _ = _
    rw [List.append_nil, List.reverse_reverse]

/-! ## Links -/

/-- The cell of an object that is linked to its parent. -/
def linked (s : Store) (parent id : ObjectId) (c : Cell) : Cell :=
  if s.isNode id then { c with parent := some parent } else { c with owned := true }

/-- Links children to their parent. -/
def linkAll (s : Store) (parent : ObjectId) (cs : List ObjectId) : Store :=
  cs.foldl (fun s c => s.modify c (s.linked parent c)) s

theorem isA_congr (hsize : t.size = s.size) (hbase : ∀ id, t.base? id = s.base? id) (g : Ground) (id : ObjectId) :
    t.isA g id = s.isA g id := by
  have hleads : ∀ steps id, t.leadsFrom g.id steps id = s.leadsFrom g.id steps id := by
    intro steps
    induction steps with
    | zero => exact fun _ => rfl
    | succ steps ih =>
      intro id
      rw [leadsFrom, leadsFrom, hbase]
      cases s.base? id with
      | none => rfl
      | some b => simp only [ih]
  rw [isA, isA, leadsTo, leadsTo, hsize, hleads]

theorem linked_base (s : Store) (parent id : ObjectId) (c : Cell) : (s.linked parent id c).base = c.base := by
  rw [linked]
  split <;> rfl

theorem isNode_modify_linked (s : Store) (parent c id : ObjectId) :
    (s.modify c (s.linked parent c)).isNode id = s.isNode id := by
  refine isA_congr (size_modify ..) (fun id => ?_) .node id
  rw [base?, base?, cell?_modify]
  split
  · cases s.cell? id with
    | none => rfl
    | some cell => exact linked_base ..
  · rfl

theorem linked_linked (s : Store) (parent id : ObjectId) (c : Cell) :
    s.linked parent id (s.linked parent id c) = s.linked parent id c := by
  simp only [linked]
  split <;> rfl

/-- Linking changes the cells of the children and no others. -/
theorem cell?_linkAll (s : Store) (parent : ObjectId) (cs : List ObjectId) (id : Nat) :
    (s.linkAll parent cs).cell? id = (s.cell? id).map fun c => if id ∈ cs then s.linked parent id c else c := by
  induction cs generalizing s with
  | nil => simp [linkAll]
  | cons c cs ih =>
    have hlinked : ∀ cell, (s.modify c (s.linked parent c)).linked parent id cell = s.linked parent id cell := by
      intro cell
      rw [linked, linked, isNode_modify_linked]
    show ((s.modify c (s.linked parent c)).linkAll parent cs).cell? id = _
    rw [ih, cell?_modify]
    cases s.cell? id with
    | none => simp
    | some cell =>
      by_cases hc : c = id
      · subst hc
        by_cases hmem : c ∈ cs <;> simp [hmem, hlinked, linked_linked]
      · simp [hc, Ne.symm hc, hlinked]

@[simp] theorem size_linkAll (s : Store) (parent : ObjectId) (cs : List ObjectId) :
    (s.linkAll parent cs).size = s.size := by
  induction cs generalizing s with
  | nil => rfl
  | cons c cs ih => exact (ih _).trans (size_modify ..)

theorem object?_linkAll (s : Store) (parent : ObjectId) (cs : List ObjectId) (id : ObjectId) :
    (s.linkAll parent cs).object? id = s.object? id := by
  rw [object?, object?, cell?_linkAll, Option.map_map]
  refine congrArg (Option.map · (s.cell? id)) (funext fun c => ?_)
  simp only [Function.comp_apply, linked]
  split
  · split <;> rfl
  · rfl

theorem base?_linkAll (s : Store) (parent : ObjectId) (cs : List ObjectId) (id : ObjectId) :
    (s.linkAll parent cs).base? id = s.base? id := by
  rw [base?, base?, cell?_linkAll]
  cases s.cell? id with
  | none => rfl
  | some c =>
    simp only [Option.map_some, Option.bind_some]
    split
    · exact linked_base ..
    · rfl

theorem isNode_linkAll (s : Store) (parent : ObjectId) (cs : List ObjectId) (id : ObjectId) :
    (s.linkAll parent cs).isNode id = s.isNode id :=
  isA_congr (size_linkAll ..) (base?_linkAll s parent cs) .node id

theorem keeps_linkAll (s : Store) (parent : ObjectId) (cs : List ObjectId) : s.Keeps (s.linkAll parent cs) :=
  ⟨by rw [size_linkAll], fun _ => object?_linkAll .., fun _ => base?_linkAll ..⟩

theorem parent?_linkAll (s : Store) (parent : ObjectId) {cs : List ObjectId} (hcs : ∀ c ∈ cs, c < s.size) (id : Nat) :
    (s.linkAll parent cs).parent? id = if id ∈ cs ∧ s.isNode id = true then some parent else s.parent? id := by
  rw [parent?, parent?, cell?_linkAll]
  by_cases hmem : id ∈ cs
  · obtain ⟨c, hc⟩ := exists_cell (hcs id hmem)
    cases hnode : s.isNode id <;> simp [hc, hmem, hnode, linked]
  · cases s.cell? id <;> simp [hmem]

theorem isOwned_linkAll (s : Store) (parent : ObjectId) {cs : List ObjectId} (hcs : ∀ c ∈ cs, c < s.size) (id : Nat) :
    (s.linkAll parent cs).isOwned id = (s.isOwned id || (decide (id ∈ cs) && !s.isNode id)) := by
  rw [isOwned, isOwned, cell?_linkAll]
  by_cases hmem : id ∈ cs
  · obtain ⟨c, hc⟩ := exists_cell (hcs id hmem)
    cases hnode : s.isNode id <;> simp [hc, hmem, hnode, linked]
  · cases s.cell? id <;> simp [hmem]

theorem recorded?_linkAll (s : Store) (parent : ObjectId) (cs : List ObjectId) (id : ObjectId) :
    (s.linkAll parent cs).recorded? id = s.recorded? id := by
  rw [recorded?, recorded?, cell?_linkAll]
  cases s.cell? id with
  | none => rfl
  | some c =>
    simp only [Option.map_some, Option.bind_some, linked]
    split
    · split <;> rfl
    · rfl

/-- Children are linked up to the first one that is no object. -/
theorem linkChildren_spec (parent : ObjectId) (children : List Value) (s : Store) :
    (∃ cs, children = cs.map .object ∧
      children.forM (fun child => Building.change fun s => s.link parent child) s = (.ok (), s.linkAll parent cs)) ∨
    ∃ cs child rest failure, children = cs.map .object ++ child :: rest ∧ (∀ id, child ≠ .object id) ∧
      children.forM (fun child => Building.change fun s => s.link parent child) s =
        (.error failure, s.linkAll parent cs) := by
  induction children generalizing s with
  | nil => exact .inl ⟨[], rfl, rfl⟩
  | cons child rest ih =>
    rw [Building.forM_cons]
    by_cases hobject : ∃ id, child = .object id
    · obtain ⟨c, rfl⟩ := hobject
      have hlink : Building.change (fun s => s.link parent (.object c)) s =
          (.ok (), s.modify c (s.linked parent c)) := by
        have : s.linked parent c = if s.isNode c then fun cell => { cell with parent := some parent }
            else fun cell => { cell with owned := true } := by
          funext cell
          rw [linked]
          split <;> rfl
        rw [this]
        rfl
      rw [Building.bind_ok hlink]
      rcases ih (s.modify c (s.linked parent c)) with ⟨cs, rfl, hrun⟩ | ⟨cs, child, rest, failure, rfl, hno, hrun⟩
      · exact .inl ⟨c :: cs, rfl, hrun⟩
      · exact .inr ⟨c :: cs, child, rest, failure, rfl, hno, hrun⟩
    · have hno : ∀ id, child ≠ .object id := fun id heq => hobject ⟨id, heq⟩
      refine .inr ⟨[], child, rest, .misuse .noMembers, rfl, hno, Building.bind_error ?_⟩
      cases child with
      | object id => exact absurd rfl (hno id)
      | _ => rfl

/-! ## What a call does to the links -/

/-- A store with new objects, in which some objects that were free have been linked to a new one. -/
structure Grown (s t : Store) (q : ObjectId) (cs : List ObjectId) : Prop where
  keeps : s.Keeps t
  grounded : t.Grounded
  closed : t.Closed
  new : cs ≠ [] → s.size ≤ q ∧ q < t.size
  below : ∀ c ∈ cs, c < q
  nodes : ∀ c ∈ cs, t.isNode c = true → t.isSourceFile c = false ∧ s.parent? c = none
  others : ∀ c ∈ cs, t.isNode c = false → s.isOwned c = false
  parent : ∀ id : Nat, t.parent? id = if id ∈ cs ∧ t.isNode id = true then some q else s.parent? id
  owned : ∀ id : Nat, t.isOwned id = (s.isOwned id || (decide (id ∈ cs) && !t.isNode id))

namespace Fresh

theorem parent? (h : s.Fresh t) (id : Nat) : t.parent? id = s.parent? id := by
  rcases Nat.lt_or_ge id s.size with hlt | hge
  · rw [Store.parent?, Store.parent?, h.old.cell hlt]
  · rw [Store.parent?, Store.parent?, cell?_eq_none hge]
    cases hc : t.cell? id with
    | none => rfl
    | some c => exact (h.unlinked hge hc).1

theorem recorded? (h : s.Fresh t) (id : Nat) : t.recorded? id = s.recorded? id := by
  rcases Nat.lt_or_ge id s.size with hlt | hge
  · rw [Store.recorded?, Store.recorded?, h.old.cell hlt]
  · rw [Store.recorded?, Store.recorded?, cell?_eq_none hge]
    cases hc : t.cell? id with
    | none => rfl
    | some c => exact (h.unlinked hge hc).2.1

theorem isOwned (h : s.Fresh t) (id : Nat) : t.isOwned id = s.isOwned id := by
  rcases Nat.lt_or_ge id s.size with hlt | hge
  · rw [Store.isOwned, Store.isOwned, h.old.cell hlt]
  · rw [Store.isOwned, Store.isOwned, cell?_eq_none hge]
    cases hc : t.cell? id with
    | none => rfl
    | some c => simpa using (h.unlinked hge hc).2.2

theorem grown (h : s.Fresh t) : s.Grown t 0 [] where
  keeps := h.old.keeps
  grounded := h.grounded
  closed := h.closed
  new hne := absurd rfl hne
  below := nofun
  nodes := nofun
  others := nofun
  parent id := by simpa using h.parent? id
  owned id := by simpa using h.isOwned id

theorem add (h : s.Fresh t) {o : Object} (ho : o.Refers (t.size + 1)) : s.Fresh (t.add o).2 where
  old := h.old.add o
  grounded := h.grounded.add o
  closed := h.closed.add ho
  unlinked {id c} hge hc := by
    rw [cell?_add] at hc
    split at hc
    · cases hc
      exact ⟨rfl, rfl, rfl⟩
    · exact h.unlinked hge hc

/-- Free objects are linked to a new one. -/
theorem linkAll (h : s.Fresh t) {q : ObjectId} {cs : List ObjectId} (hq : s.size ≤ q ∧ q < t.size)
    (hcs : ∀ c ∈ cs, c < q ∧ t.Free c) : s.Grown (t.linkAll q cs) q cs := by
  have hlt : ∀ c ∈ cs, c < t.size := fun c hc => Nat.lt_trans (hcs c hc).1 hq.2
  have hnode := isNode_linkAll t q cs
  have hk := keeps_linkAll t q cs
  exact
    { keeps := h.old.keeps.trans hk
      grounded := h.grounded.of_keeps hk fun hge hlt => by rw [size_linkAll] at hlt; omega
      closed := ⟨fun {id o} ho => by
        rw [object?_linkAll] at ho
        rw [size_linkAll]
        exact h.closed.refers ho⟩
      new := fun _ => by rw [size_linkAll]; exact hq
      below := fun c hc => (hcs c hc).1
      nodes := fun c hc hn => by
        rw [hnode] at hn
        have hfree := (hcs c hc).2.1 hn
        rw [h.grounded.isSourceFile_keeps hk (hlt c hc), ← h.parent? c]
        exact hfree
      others := fun c hc hn => by
        rw [hnode] at hn
        rw [← h.isOwned c]
        exact (hcs c hc).2.2 hn
      parent := fun id => by rw [parent?_linkAll t q hlt, hnode, h.parent?]
      owned := fun id => by rw [isOwned_linkAll t q hlt, hnode, h.isOwned] }

end Fresh

/-! ## New nodes -/

theorem refers_node {n : Node} {size : Nat} (hplain : n.assigned = []) (hvariant : n.variant.self < size)
    (hslots : n.slots < size) (hfile : ∀ f, n.file = some f → f.endOfFile < size) : (Object.node n).Refers size := by
  refine ⟨fun {name v} hown => ?_, nofun⟩
  have hmem : (name, v) ∈ n.madeWith := by
    simp only [Object.own?, Object.hidden, Object.listed, Node.members, hplain] at hown
    exact Members.mem_of_get? hown
  rw [Node.madeWith] at hmem
  cases hf : n.file with
  | none =>
    simp only [hf, List.mem_cons, List.not_mem_nil, or_false, Prod.mk.injEq] at hmem
    rcases hmem with ⟨_, rfl⟩ | ⟨_, rfl⟩ | ⟨_, rfl⟩ | ⟨_, rfl⟩
    · exact hvariant
    · exact hslots
    · trivial
    · trivial
  | some file =>
    simp only [hf, List.mem_cons, List.not_mem_nil, or_false, Prod.mk.injEq] at hmem
    rcases hmem with ⟨_, rfl⟩ | ⟨_, rfl⟩ | ⟨_, rfl⟩ | ⟨_, rfl⟩ | ⟨_, rfl⟩ | ⟨_, rfl⟩
    · exact hvariant
    · exact hslots
    · trivial
    · trivial
    · trivial
    · exact hfile file hf

/-- The rows of a node whose slots are in a record, given what is met there. -/
def rowsOf (s : Store) (slots : ObjectId) (met : List (Text × Sequence)) : List Row :=
  met.map fun entry => ⟨entry.1, s.lookup slots entry.1, (entry.2.visited 2).filterMap Value.object?⟩

theorem map_filterMap_object? {vs : List Value} (h : ∀ v ∈ vs, ∃ id, v = .object id) :
    (vs.filterMap Value.object?).map .object = vs := by
  induction vs with
  | nil => rfl
  | cons v vs ih =>
    obtain ⟨id, rfl⟩ := h v List.mem_cons_self
    show Value.object id :: (vs.filterMap Value.object?).map Value.object = _
    rw [ih fun w hw => h w (List.mem_cons_of_mem _ hw)]

variable {p : Plan} {input : Input} {filled : List Text} {m : Members Value} {base : Option ObjectId}

namespace Filling

/-- A slot of a full record is read in every later store as it is now. -/
theorem lookup_keeps (hs : s.Grounded) (h : Filling s p input p.layout.names m base true t) {u : Store}
    (hk : t.Keeps u) {slot : Text} (hslot : slot ∈ p.layout.names) : u.lookup s.size slot = t.lookup s.size slot := by
  have ht := h.grounded hs
  rcases h.complete slot hslot with rfl | hhas
  · exact ht.lookup_keeps hk h.lt_size (by decide)
  · obtain ⟨v, hv⟩ := Members.exists_get? hhas
    rw [h.lookup_own hs hv]
    refine Store.lookup_own (by rw [hk.object h.lt_size, h.object?_record]) ?_ (ht.ofId?_eq_none h.object?_record nofun)
    simpa [Object.own?, Object.hidden, Object.listed, Members.get?] using hv

theorem lookup_within (hs : s.Grounded) (hc : s.Closed) (h : Filling s p input p.layout.names m base true t)
    {slot : Text} (hslot : slot ∈ p.layout.names) : (t.lookup s.size slot).Within t.size := by
  rcases h.complete slot hslot with rfl | hhas
  · exact (h.closed hc).lookup (h.grounded hs) _ (by decide)
  · obtain ⟨v, hv⟩ := Members.exists_get? hhas
    rw [h.lookup_own hs hv]
    exact h.within hv

/-- A node that is made of a full record shows what is met there, if that is nothing but objects. -/
theorem shows (hs : s.Grounded) (hc : s.Closed) (h : Filling s p input p.layout.names m base true t) {n : Node}
    (hslots : n.slots = s.size) (hplain : n.assigned = []) (hlayout : n.variant.slotNames = p.layout.names)
    {met : List (Text × Sequence)} (hnames : met.map Prod.fst = p.layout.names) (hmet : t.Met s.size met)
    (hobjects : ∀ entry ∈ met, ∀ child ∈ entry.2.visited 2, ∃ id, child = .object id) :
    (t.add (.node n)).2.Shows t.size n (t.rowsOf s.size met) := by
  have hk : t.Keeps (t.add (.node n)).2 := ((Extends.refl t).add _).keeps
  have hslot : ∀ entry ∈ met, entry.1 ∈ p.layout.names := fun entry hentry =>
    hnames ▸ List.mem_map.mpr ⟨entry, hentry, rfl⟩
  have hcell : (t.add (.node n)).2.cell? t.size = some (.ofObject (.node n)) := by rw [cell?_add, if_pos rfl]
  exact
    { object := by rw [object?, hcell]; rfl
      base := by rw [base?, hcell]; rfl
      plain := hplain
      slots := by rw [hlayout, ← hnames, rowsOf, List.map_map]; rfl
      record := by
        refine ⟨m, by rw [hslots, hk.object h.lt_size, h.object?_record], fun row hrow => ?_⟩
        obtain ⟨entry, hentry, rfl⟩ := List.mem_map.mp hrow
        refine (h.complete entry.1 (hslot entry hentry)).imp_right fun hhas => ?_
        obtain ⟨v, hv⟩ := Members.exists_get? hhas
        rw [hv, h.lookup_own hs hv]
      lookup := by
        intro row hrow
        obtain ⟨entry, hentry, rfl⟩ := List.mem_map.mp hrow
        rw [hslots]
        exact h.lookup_keeps hs hk (hslot entry hentry)
      within := by
        intro row hrow
        obtain ⟨entry, hentry, rfl⟩ := List.mem_map.mp hrow
        exact (h.lookup_within hs hc (hslot entry hentry)).mono hk.size_le
      iterated := by
        intro row hrow
        obtain ⟨entry, hentry, rfl⟩ := List.mem_map.mp hrow
        have hfull : entry.2 = .ofList (entry.2.visited 2) := Sequence.eq_ofList_visited fun hmem => by
          obtain ⟨id, hid⟩ := hobjects entry hentry _ hmem
          cases hid
        rw [(h.grounded hs).iterated_keeps hk (h.lookup_within hs hc (hslot entry hentry)), hmet entry hentry,
          map_filterMap_object? (hobjects entry hentry), ← hfull] }

end Filling

/-- A node that was made of an input: it is new, its children are linked to it and nothing else is, and it shows for each
slot the children that were given. -/
structure Made (s : Store) (p : Plan) (input : Input) (id : ObjectId) (n : Node) (rows : List Row) (t : Store) :
    Prop where
  new : s.size ≤ id
  grown : s.Grown t id (rows.flatMap Row.children)
  shows : t.Shows id n rows
  nodup : (rows.flatMap Row.children).Nodup
  recorded : ∀ id : Nat, t.recorded? id = s.recorded? id
  given : ∀ row ∈ rows, row.slot ≠ baseName → ∃ arity checked, (row.slot, arity) ∈ p.layout ∧
    s.checkSlot p.kind row.slot arity (input.read row.slot) = .ok checked ∧
    row.children.map .object = checked.children ∧ t.Stands checked row.value
  elements : input.Unshadowed s p.layout → ∀ c ∈ rows.flatMap Row.children, s.isElement (.object c) = true

/-- What is met in a full record in a slot other than the base's is what was given for it. -/
theorem Filling.given (hs : s.Grounded) (h : Filling s p input p.layout.names m base true t)
    {met : List (Text × Sequence)} (hnames : met.map Prod.fst = p.layout.names) (hmet : t.Met s.size met) :
    ∀ entry ∈ met, entry.1 ≠ baseName → ∃ arity checked, (entry.1, arity) ∈ p.layout ∧
      s.checkSlot p.kind entry.1 arity (input.read entry.1) = .ok checked ∧ entry.2.visited 2 = checked.children ∧
      t.Stands checked (t.lookup s.size entry.1) := by
  intro entry hentry hbase
  have hslot : entry.1 ∈ p.layout.names := hnames ▸ List.mem_map.mpr ⟨entry, hentry, rfl⟩
  have hhas := (h.complete entry.1 hslot).resolve_left hbase
  obtain ⟨v, hv⟩ := Members.exists_get? hhas
  obtain ⟨arity, checked, harity, hcheck, hiterated, hstands⟩ := h.iterated_own hs hv
  have hq := hmet entry hentry
  rw [h.lookup_own hs hv, hiterated] at hq
  refine ⟨arity, checked, harity, hcheck, by rw [← Except.ok.inj hq, Sequence.visited_ofList], ?_⟩
  rwa [h.lookup_own hs hv]

/-- What is met in a full record is nothing but nodes and tokens that were there before, if nothing hides what the record
extends. -/
theorem Filling.met_elements (hs : s.Grounded) (hu : input.Unshadowed s p.layout)
    (h : Filling s p input p.layout.names m base true t) {met : List (Text × Sequence)}
    (hnames : met.map Prod.fst = p.layout.names) (hmet : t.Met s.size met) :
    ∀ entry ∈ met, ∀ child ∈ entry.2.visited 2, s.isElement child = true := by
  intro entry hentry child hchild
  by_cases hbase : entry.1 = baseName
  · obtain ⟨ws, hiterated, hws⟩ :=
      h.iterated_base hs hu (hbase ▸ hnames ▸ List.mem_map.mpr ⟨entry, hentry, rfl⟩)
    have hq := hmet entry hentry
    rw [hbase, hiterated] at hq
    rw [← Except.ok.inj hq, Sequence.visited_ofList] at hchild
    exact hws child hchild
  · obtain ⟨arity, checked, _, hcheck, hvisited, _⟩ := h.given hs hnames hmet entry hentry hbase
    rw [hvisited] at hchild
    exact isElement_of_checkSlot hcheck child hchild

/-- The children that can be attached were there before the node, and are free. -/
theorem Filling.free_of_met (hs : s.Grounded) (hc : s.Closed) (h : Filling s p input p.layout.names m base true t)
    {met : List (Text × Sequence)} (hnames : met.map Prod.fst = p.layout.names) (hmet : t.Met s.size met)
    (hchecks : ∀ entry ∈ met, ∀ child ∈ entry.2.visited 2, t.checkChild p.kind entry.1 child = .ok ()) {c : ObjectId}
    (hmem : .object c ∈ met.flatMap (·.2.visited 2)) : c < t.size ∧ t.Free c := by
  obtain ⟨entry, hentry, hvisited⟩ := List.mem_flatMap.mp hmem
  have hslot : entry.1 ∈ p.layout.names := hnames ▸ List.mem_map.mpr ⟨entry, hentry, rfl⟩
  have hlt : c < t.size := (h.fresh hs hc).closed.iterated (h.lookup_within hs hc hslot) (hmet entry hentry) (.object c)
    (Sequence.mem_values_of_visited hvisited fun heq => by cases heq)
  exact ⟨hlt, (checkChild_object p.kind entry.1 hlt).mp (hchecks entry hentry _ hvisited)⟩

/-- The rows of a record list the children that are met in it, in order. -/
theorem children_rowsOf {slots : ObjectId} {met : List (Text × Sequence)} {cs : List ObjectId}
    (hcs : met.flatMap (·.2.visited 2) = cs.map .object) : (t.rowsOf slots met).flatMap Row.children = cs := by
  have hfilter : (met.flatMap (·.2.visited 2)).filterMap Value.object? = cs := by
    rw [hcs, List.filterMap_map]
    simp [Function.comp_def, Value.object?]
  rw [rowsOf, List.flatMap_map, ← hfilter, List.filterMap_flatMap]

/-- Linking the children that are met in a full record makes a node of the input. -/
theorem Filling.made (hs : s.Grounded) (hc : s.Closed) (h : Filling s p input p.layout.names m base true t) {n : Node}
    (hslots : n.slots = s.size) (hplain : n.assigned = []) (hlayout : n.variant.slotNames = p.layout.names)
    {met : List (Text × Sequence)} (hnames : met.map Prod.fst = p.layout.names) (hmet : t.Met s.size met)
    {cs : List ObjectId} (hcs : met.flatMap (·.2.visited 2) = cs.map .object)
    (hnodup : (met.flatMap (·.2.visited 2)).Nodup) (hadded : s.Fresh (t.add (.node n)).2)
    (hgrown : s.Grown ((t.add (.node n)).2.linkAll t.size cs) t.size cs) :
    s.Made p input t.size n (t.rowsOf s.size met) ((t.add (.node n)).2.linkAll t.size cs) := by
  have hobjects : ∀ entry ∈ met, ∀ child ∈ entry.2.visited 2, ∃ id, child = .object id := by
    intro entry hentry child hchild
    have hmem : child ∈ cs.map .object := hcs ▸ List.mem_flatMap.mpr ⟨entry, hentry, hchild⟩
    obtain ⟨id, _, hid⟩ := List.mem_map.mp hmem
    exact ⟨id, hid.symm⟩
  have hrows : (t.rowsOf s.size met).flatMap Row.children = cs := children_rowsOf hcs
  have hk : t.Keeps ((t.add (.node n)).2.linkAll t.size cs) :=
    ((Extends.refl t).add _).keeps.trans (keeps_linkAll _ t.size cs)
  exact
    { new := h.old.size_le
      grown := hrows ▸ hgrown
      shows := (h.shows hs hc hslots hplain hlayout hnames hmet hobjects).keeps hadded.grounded
        (keeps_linkAll _ t.size cs)
      nodup := hrows ▸ (hcs ▸ hnodup).of_map _
      recorded := fun id => by rw [recorded?_linkAll, hadded.recorded?]
      given := fun row hrow hbase => by
        obtain ⟨entry, hentry, rfl⟩ := List.mem_map.mp hrow
        rw [map_filterMap_object? (hobjects entry hentry)]
        obtain ⟨arity, checked, harity, hcheck, hvisited, hstands⟩ := h.given hs hnames hmet entry hentry hbase
        have hslot : entry.1 ∈ p.layout.names := hnames ▸ List.mem_map.mpr ⟨entry, hentry, rfl⟩
        exact ⟨arity, checked, harity, hcheck, hvisited, hstands.keeps hk (h.lookup_within hs hc hslot)⟩
      elements := fun hu c hc => by
        have hmem : .object c ∈ met.flatMap (·.2.visited 2) := hcs ▸ List.mem_map.mpr ⟨c, hrows ▸ hc, rfl⟩
        obtain ⟨entry, hentry, hvisited⟩ := List.mem_flatMap.mp hmem
        exact h.met_elements hs hu hnames hmet entry hentry _ hvisited }

/-- What attaching the children of a full record to a new node comes to. If nothing hides what the record extends, it
fails only if the children cannot be attached, and then nothing is changed. -/
theorem attach_spec (hs : s.Grounded) (hc : s.Closed) (h : Filling s p input p.layout.names m base true t) {n : Node}
    (hslots : n.slots = s.size) (hplain : n.assigned = []) (hlayout : n.variant.slotNames = p.layout.names)
    (hvariant : n.variant.self < s.size) (hfile : ∀ f, n.file = some f → f.endOfFile < t.size) :
    (∃ rows u, attach p n t = (.ok t.size, u) ∧ s.Made p input t.size n rows u ∧ t.Keeps u) ∨
      ∃ failure q cs u, attach p n t = (.error failure, u) ∧ s.Grown u q cs ∧
        (∀ id : Nat, u.recorded? id = s.recorded? id) ∧
        (input.Unshadowed s p.layout → t.attachable p s.size = .error failure ∧ u = t) := by
  have hfresh := h.fresh hs hc
  have hlt := h.lt_size
  have hadded : s.Fresh (t.add (.node n)).2 := hfresh.add
    (refers_node hplain (Nat.lt_of_lt_of_le hvariant (by omega)) (by rw [hslots]; exact Nat.lt_succ_of_lt hlt)
      fun f hf => Nat.lt_succ_of_lt (hfile f hf))
  rw [attach_def]
  cases hattach : t.attachable p s.size with
  | error failure =>
    have hread : Building.read (fun u => u.attachable p n.slots) t = (.error failure, t) := by
      rw [Building.read, hslots, hattach]
    exact .inr ⟨failure, 0, [], t, Building.bind_error hread, hfresh.grown, hfresh.recorded?, fun _ => ⟨rfl, rfl⟩⟩
  | ok children =>
    have hread : Building.read (fun u => u.attachable p n.slots) t = (.ok children, t) := by
      rw [Building.read, hslots, hattach]
    have hadd : Building.add (.node n) t = (.ok t.size, (t.add (.node n)).2) := rfl
    obtain ⟨met, hnames, hmet, rfl, hnodup, hchecks⟩ := attachable_eq_ok.mp hattach
    have hgrown : ∀ cs : List ObjectId, (∀ c ∈ cs, .object c ∈ met.flatMap (·.2.visited 2)) →
        s.Grown ((t.add (.node n)).2.linkAll t.size cs) t.size cs := by
      intro cs hcs
      refine hadded.linkAll ⟨h.old.size_le, by simp⟩ fun c hmem => ?_
      obtain ⟨hlt, hfree⟩ := h.free_of_met hs hc hnames hmet hchecks (hcs c hmem)
      exact ⟨hlt, (((Extends.refl t).add _).free_iff hfresh.grounded hlt).mpr hfree⟩
    rw [Building.bind_ok hread, Building.bind_ok hadd]
    rcases linkChildren_spec t.size (met.flatMap (·.2.visited 2)) (t.add (.node n)).2 with
      ⟨cs, hcs, hrun⟩ | ⟨cs, child, rest, failure, hcs, hno, hrun⟩
    · refine .inl ⟨t.rowsOf s.size met, _, by rw [Building.bind_ok hrun]; rfl, ?_,
        ((Extends.refl t).add _).keeps.trans (keeps_linkAll _ t.size cs)⟩
      exact h.made hs hc hslots hplain hlayout hnames hmet hcs hnodup hadded
        (hgrown cs fun c hmem => hcs ▸ List.mem_map.mpr ⟨c, hmem, rfl⟩)
    · refine .inr ⟨failure, t.size, cs, _, Building.bind_error hrun, hgrown cs fun c hmem => ?_, fun id => ?_,
        fun hu => ?_⟩
      · exact hcs ▸ List.mem_append_left _ (List.mem_map.mpr ⟨c, hmem, rfl⟩)
      · rw [recorded?_linkAll, hadded.recorded?]
      · -- Every child is an object, which can be linked.
        have hmem : child ∈ met.flatMap (·.2.visited 2) := by rw [hcs]; simp
        obtain ⟨entry, hentry, hvisited⟩ := List.mem_flatMap.mp hmem
        obtain ⟨id, hid, _⟩ := isElement_object (h.met_elements hs hu hnames hmet entry hentry child hvisited)
        exact absurd hid (hno id)

end LosslessSyntax.Store
