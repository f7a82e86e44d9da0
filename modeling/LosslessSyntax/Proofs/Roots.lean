import LosslessSyntax.Proofs.Forest

/-!
# Source files above nodes

A source file is recorded for every node below it when it is made, so that a node finds its source without going up its
parent chain. `Store.Rooted` is what calls preserve of these records, as long as every node in a slot of what they make
was returned by a call before (`Call.Genuine`): a node has the same source file as its parent, and a source file has
itself.

* `Rooted.recorded_of_reaches`: every node below a returned source file is a returned node, and that file is recorded
  for it;
* `Reached.rooted`: so it is in every store that can be reached by such calls.

An object that extends a node without being one shows the slots of that node, so that a source file above it would be
recorded for nodes of another tree.
-/

namespace LosslessSyntax

/-- A call that puts no other nodes into slots of new nodes than those that were returned before. -/
def Call.Genuine (c : Call) (s : Store) (made : List ObjectId) : Prop :=
  ∀ p x slot place, s.size ≤ p → (c.run s).2.isNode p = true → (c.run s).2.StandsAt x p slot place →
    (c.run s).2.isNode x = true → x ∈ made

namespace Store

variable {s t : Store} {made : List ObjectId}

/-- The objects that stand in the slots of a node, as far as these can be gone through. -/
def standing (s : Store) (p : ObjectId) : List ObjectId :=
  (s.contents (.object p) : Attempt (Members Value)).toOption.elim [] fun slots => slots.flatMap fun entry =>
    (s.iterated entry.2).toOption.elim [] fun met => met.values.filterMap Value.object?

theorem mem_standing {x p : ObjectId} : x ∈ s.standing p ↔ ∃ slot place, s.StandsAt x p slot place := by
  constructor
  · intro h
    rw [standing] at h
    cases hslots : s.contents (.object p) with
    | error failure => rw [hslots] at h; cases h
    | ok slots =>
      rw [hslots] at h
      obtain ⟨⟨slot, content⟩, hmem, h⟩ := List.mem_flatMap.mp h
      cases hmet : s.iterated content with
      | error misuse => rw [hmet] at h; cases h
      | ok met =>
        rw [hmet] at h
        obtain ⟨value, hvalue, hx⟩ := List.mem_filterMap.mp h
        obtain ⟨entry, hentry, rfl⟩ := List.mem_map.mp hvalue
        refine ⟨slot, entry.1, slots, content, met, hslots, hmem, hmet, ?_⟩
        rw [Sequence.get?_of_mem hentry]
        cases hv : entry.2 <;> rw [hv] at hx <;> cases hx
        rfl
  · rintro ⟨slot, place, slots, content, met, hslots, hmem, hmet, hplace⟩
    rw [standing, hslots]
    refine List.mem_flatMap.mpr ⟨_, hmem, ?_⟩
    rw [hmet]
    exact List.mem_filterMap.mpr ⟨_, Sequence.mem_values_of_get? hplace, rfl⟩

/-- Whether a call is genuine can be seen from the objects that it makes. -/
instance (c : Call) (s : Store) (made : List ObjectId) : Decidable (c.Genuine s made) :=
  decidable_of_iff (∀ p < (c.run s).2.size, s.size ≤ p → (c.run s).2.isNode p = true →
      ∀ x ∈ (c.run s).2.standing p, (c.run s).2.isNode x = true → x ∈ made) <| by
    constructor
    · intro h p x slot place hge hp hstands
      exact h p (lt_size_of_isNode hp) hge hp x (mem_standing.mpr ⟨slot, place, hstands⟩)
    · intro h p _ hge hp x hx
      obtain ⟨slot, place, hstands⟩ := mem_standing.mp hx
      exact h p x slot place hge hp hstands

/-- The source files that are recorded for nodes agree with the links of returned nodes. -/
structure Rooted (s : Store) (made : List ObjectId) : Prop where
  known : ∀ p ∈ made, ∀ c, s.Child p c → s.isNode c = true → c ∈ made
  above : ∀ c root, s.recorded? c = some root → s.isSourceFile c = true ∨ ∃ p, s.parent? c = some p
  same : ∀ c p, s.parent? c = some p → p ∈ made → s.recorded? c = s.recorded? p
  file : ∀ root ∈ made, s.isSourceFile root = true → s.recorded? root = some root

theorem lt_size_of_recorded? {id root : ObjectId} (h : s.recorded? id = some root) : id < s.size := by
  refine Nat.lt_of_not_le fun hge => ?_
  rw [recorded?, cell?_eq_none hge] at h
  cases h

namespace Rooted

/-- Linking objects to something that was not returned records nothing. -/
theorem grown (h : s.Rooted made) (hs : s.Sound made) {q : ObjectId} {cs : List ObjectId} (hg : s.Grown t q cs)
    (hrecorded : ∀ id : Nat, t.recorded? id = s.recorded? id) : t.Rooted made where
  known p hp c hchild hn := by
    have hchild' := (hs.child_keeps hg.keeps hp c).mp hchild
    rw [hs.grounded.isNode_keeps hg.keeps (hchild'.lt_size hs.closed)] at hn
    exact h.known p hp c hchild' hn
  above c root hroot := by
    rw [hrecorded c] at hroot
    rw [hs.grounded.isSourceFile_keeps hg.keeps (lt_size_of_recorded? hroot)]
    refine (h.above c root hroot).imp_right fun ⟨p, hparent⟩ => ?_
    rw [hg.parent c]
    split
    · exact ⟨q, rfl⟩
    · exact ⟨p, hparent⟩
  same c p hparent hp := by
    rw [hg.parent c] at hparent
    split at hparent
    · rename_i hc
      cases hparent
      exact absurd (hs.lt_size hp) (Nat.not_lt_of_le (hg.new (List.ne_nil_of_mem hc.1)).1)
    · rw [hrecorded c, hrecorded p]
      exact h.same c p hparent hp
  file root hroot hfile := by
    rw [hs.grounded.isSourceFile_keeps hg.keeps (hs.lt_size hroot)] at hfile
    rw [hrecorded root]
    exact h.file root hroot hfile

/-- What holds after a node was made of returned ones, before a source file is recorded. -/
theorem links_of_made (h : s.Rooted made) (hs : s.Sound made) {p : Plan} {input : Input} {id : ObjectId} {n : Node}
    {rows : List Row} (hmade : s.Made p input id n rows t)
    (hknown : ∀ c ∈ rows.flatMap Row.children, t.isNode c = true → c ∈ made) :
    (∀ p ∈ id :: made, ∀ c, t.Child p c → t.isNode c = true → c ∈ made) ∧
      ∀ c p, t.parent? c = some p → p ∈ id :: made → t.recorded? c = t.recorded? p := by
  have ht := h.grown hs hmade.grown hmade.recorded
  refine ⟨?_, ?_⟩
  · rintro p (_ | ⟨_, hp⟩) c hchild hn
    · exact hknown c (hmade.shows.child.mp hchild) hn
    · exact ht.known p hp c hchild hn
  · rintro c p hparent (_ | ⟨_, hp⟩)
    · rw [hmade.grown.parent c] at hparent
      split at hparent
      · rename_i hc
        obtain ⟨hfile, hfree⟩ := hmade.grown.nodes c hc.1 hc.2
        have hnone : s.recorded? c = none := by
          cases hroot : s.recorded? c with
          | none => rfl
          | some root =>
            rcases h.above c root hroot with hfile' | ⟨p, hparent⟩
            · rw [hs.grounded.isSourceFile_keeps hmade.grown.keeps (lt_size_of_recorded? hroot), hfile'] at hfile
              cases hfile
            · rw [hfree] at hparent
              cases hparent
        have hnew : s.recorded? id = none := by rw [recorded?, cell?_eq_none hmade.new]; rfl
        rw [hmade.recorded c, hmade.recorded id, hnone, hnew]
      · exact absurd (hs.younger c id hparent).2 (Nat.not_lt_of_le hmade.new)
    · exact ht.same c p hparent hp

/-- Nothing is recorded for a new node that is no source file. -/
theorem returned (h : s.Rooted made) (hs : s.Sound made) {p : Plan} {input : Input} {id : ObjectId} {n : Node}
    {rows : List Row} (hmade : s.Made p input id n rows t)
    (hknown : ∀ c ∈ rows.flatMap Row.children, t.isNode c = true → c ∈ made) (hfile : n.isSourceFile = false) :
    t.Rooted (id :: made) := by
  have ht := h.grown hs hmade.grown hmade.recorded
  obtain ⟨hchildren, hsame⟩ := h.links_of_made hs hmade hknown
  refine ⟨fun p hp c hchild hn => List.mem_cons_of_mem _ (hchildren p hp c hchild hn), ht.above, hsame, ?_⟩
  rintro root (_ | ⟨_, hroot⟩) hisFile
  · rw [hmade.shows.isSourceFile hmade.grown.grounded, hfile] at hisFile
    cases hisFile
  · exact ht.file root hroot hisFile

end Rooted

/-! ## Nodes below returned nodes -/

namespace Sound

theorem hasChild (h : s.Sound made) {p c : ObjectId} (hp : p ∈ made) :
    s.HasChild p c ↔ s.Child p c ∧ s.isNode c = true := by
  obtain ⟨n, rows, hshows, _⟩ := h.shows p hp
  rw [hshows.child, hshows.hasChild h.grounded]

theorem parent_of_hasChild (h : s.Sound made) {p c : ObjectId} (hp : p ∈ made) (hc : s.HasChild p c) :
    s.parent? c = some p ∧ s.isSourceFile c = false := by
  obtain ⟨hchild, hn⟩ := (h.hasChild hp).mp hc
  exact (h.linked p hp c hchild).node hn

section Below

variable {p x y : ObjectId} (h : s.Sound made)
  (hknown : ∀ p ∈ made, ∀ c, s.Child p c → s.isNode c = true → c ∈ made)
include h hknown

/-- If all nodes in slots of returned nodes were returned, so was every node below one. -/
theorem mem_of_below (hp : p ∈ made) (hx : Relation.ReflTransGen s.HasChild p x) : x ∈ made := by
  induction hx with
  | refl => exact hp
  | tail _ hc ih =>
    obtain ⟨hchild, hn⟩ := (h.hasChild ih).mp hc
    exact hknown _ ih _ hchild hn

/-- A node below a returned one is that one, or has its parent below it as well. -/
theorem parent_of_below (hp : p ∈ made) (hx : Relation.ReflTransGen s.HasChild p x) :
    x = p ∨ ∃ y, Relation.ReflTransGen s.HasChild p y ∧ s.parent? x = some y ∧ s.isSourceFile x = false := by
  rcases Relation.ReflTransGen.cases_tail hx with heq | ⟨y, hy, hc⟩
  · exact .inl heq
  · exact .inr ⟨y, hy, h.parent_of_hasChild (h.mem_of_below hknown hp hy) hc⟩

/-- A node and its parent are both below a returned node that has no parent, or neither is. -/
theorem below_iff_parent (hp : p ∈ made) (htop : s.parent? p = none) (hparent : s.parent? x = some y)
    (hy : y ∈ made) : Relation.ReflTransGen s.HasChild p x ↔ Relation.ReflTransGen s.HasChild p y := by
  constructor
  · intro hx
    rcases h.parent_of_below hknown hp hx with heq | ⟨z, hz, hparent', _⟩
    · rw [heq, htop] at hparent
      cases hparent
    · rw [hparent] at hparent'
      cases hparent'
      exact hz
  · intro hbelow
    exact hbelow.tail ((h.hasChild hy).mpr ⟨h.stands x y hparent hy, h.isNode x y hparent⟩)

/-- The nodes below a returned node can be listed. -/
theorem nodesOf_eq (hp : p ∈ made) :
    ∃ nodes, s.nodesOf p = (nodes, none) ∧ ∀ x, x ∈ nodes ↔ Relation.ReflTransGen s.HasChild p x := by
  have hnone : (s.nodesOf p).2 = none := by
    refine nodesFrom_none (Nat.lt_succ_of_lt (h.lt_size hp)) fun x hx => ?_
    have hmade := h.mem_of_below hknown hp hx
    obtain ⟨n, rows, hshows, _⟩ := h.shows x hmade
    refine ⟨_, hshows.childNodes h.grounded, fun c hc => ?_⟩
    exact (h.younger c x (h.parent_of_hasChild hmade ⟨_, hshows.childNodes h.grounded, hc⟩).1).1
  exact ⟨_, Prod.ext rfl hnone, mem_nodesFrom (Prod.ext rfl hnone : s.nodesOf p = ((s.nodesOf p).1, none))⟩

end Below

/-- A new node has no parent. -/
theorem parent?_made (h : s.Sound made) {p : Plan} {input : Input} {id : ObjectId} {n : Node} {rows : List Row}
    (hmade : s.Made p input id n rows t) : t.parent? id = none := by
  cases hparent : t.parent? id with
  | none => rfl
  | some p =>
    rw [hmade.grown.parent id] at hparent
    split at hparent
    · rename_i hc
      exact absurd (hmade.grown.below id hc.1) (Nat.lt_irrefl id)
    · obtain ⟨hlt, hsize⟩ := h.younger id p hparent
      exact absurd (Nat.lt_trans hlt hsize) (Nat.not_lt_of_le hmade.new)

end Sound

/-- Recording a returned source file that has no parent for all nodes below it keeps the records in order. -/
theorem Rooted.recordRoot {root : ObjectId} (h : s.Rooted made) (hs : s.Sound (root :: made))
    (hknown : ∀ p ∈ root :: made, ∀ c, s.Child p c → s.isNode c = true → c ∈ root :: made)
    (hsame : ∀ c p, s.parent? c = some p → p ∈ root :: made → s.recorded? c = s.recorded? p)
    (hfile : s.isSourceFile root = true) (htop : s.parent? root = none) {nodes : List ObjectId}
    (hnodes : s.nodesOf root = (nodes, none)) : (s.recordRoot root nodes).Rooted (root :: made) := by
  have hroot : root ∈ root :: made := List.mem_cons_self
  obtain ⟨nodes', hnodes', hmem⟩ := hs.nodesOf_eq hknown hroot
  rw [hnodes] at hnodes'
  cases hnodes'
  have hrecorded := recorded?_recordRoot s root fun x hx => hs.lt_size (hs.mem_of_below hknown hroot ((hmem x).mp hx))
  have hkeep := keeps_recordRoot s root nodes
  exact
    { known := by
        intro p hp c hchild hn
        have hchild' := (hs.child_keeps hkeep hp c).mp hchild
        rw [isNode_recordRoot] at hn
        exact hknown p hp c hchild' hn
      above := by
        intro c file hc
        rw [parent?_recordRoot]
        rw [hrecorded c] at hc
        split at hc
        · rename_i hbelow
          rcases hs.parent_of_below hknown hroot ((hmem c).mp hbelow) with rfl | ⟨y, _, hparent, _⟩
          · rw [hs.grounded.isSourceFile_keeps hkeep (hs.lt_size hroot)]
            exact .inl hfile
          · exact .inr ⟨y, hparent⟩
        · rw [hs.grounded.isSourceFile_keeps hkeep (lt_size_of_recorded? hc)]
          exact h.above c file hc
      same := by
        intro c p hparent hp
        rw [parent?_recordRoot] at hparent
        have hiff : c ∈ nodes ↔ p ∈ nodes := by
          rw [hmem, hmem, hs.below_iff_parent hknown hroot htop hparent hp]
        rw [hrecorded c, hrecorded p, hsame c p hparent hp]
        simp only [hiff]
      file := by
        intro file hmade hisFile
        rw [hs.grounded.isSourceFile_keeps hkeep (hs.lt_size hmade)] at hisFile
        rw [hrecorded file]
        split
        · rename_i hbelow
          -- No other file is below it.
          rcases hs.parent_of_below hknown hroot ((hmem file).mp hbelow) with rfl | ⟨_, _, _, hno⟩
          · rfl
          · rw [hno] at hisFile
            cases hisFile
        · rename_i hout
          have hne : file ≠ root := fun heq => hout (heq ▸ (hmem root).mpr .refl)
          exact h.file file (List.mem_of_ne_of_mem hne hmade) hisFile }

/-- A new source file is recorded for itself and for all nodes below it. -/
theorem Rooted.returnedFile (h : s.Rooted made) (hs : s.Sound made) {p : Plan} {input : Input} {id : ObjectId}
    {n : Node} {rows : List Row} (hmade : s.Made p input id n rows t)
    (hknown : ∀ c ∈ rows.flatMap Row.children, t.isNode c = true → c ∈ made) (hfile : n.isSourceFile = true)
    {nodes : List ObjectId} (hnodes : t.nodesOf id = (nodes, none)) : (t.recordRoot id nodes).Rooted (id :: made) := by
  obtain ⟨hchildren, hsame⟩ := h.links_of_made hs hmade hknown
  refine (h.grown hs hmade.grown hmade.recorded).recordRoot
    (hs.returned hmade.new hmade.grown hmade.shows hmade.nodup) ?_ hsame ?_ (hs.parent?_made hmade) hnodes
  · exact fun p hp c hchild hn => List.mem_cons_of_mem _ (hchildren p hp c hchild hn)
  · rw [hmade.shows.isSourceFile hmade.grown.grounded, hfile]

/-- All nodes below a new source file were returned, so that each of them can be listed. -/
theorem Rooted.nodesOf_ne_failure (h : s.Rooted made) (hs : s.Sound made) {p : Plan} {input : Input} {id : ObjectId}
    {n : Node} {rows : List Row} (hmade : s.Made p input id n rows t)
    (hknown : ∀ c ∈ rows.flatMap Row.children, t.isNode c = true → c ∈ made) (nodes : List ObjectId)
    (failure : Failure) : t.nodesOf id ≠ (nodes, some failure) := by
  have hsound := hs.returned hmade.new hmade.grown hmade.shows hmade.nodup
  obtain ⟨hchildren, _⟩ := h.links_of_made hs hmade hknown
  obtain ⟨nodes', hnodes', _⟩ := hsound.nodesOf_eq
    (fun p hp c hchild hn => List.mem_cons_of_mem _ (hchildren p hp c hchild hn)) List.mem_cons_self
  rw [hnodes']
  intro heq
  cases heq

/-! ## Nodes below a source file -/

theorem Sound.childNode (h : s.Sound made) {p c : ObjectId} (hp : p ∈ made) :
    s.ChildNode p c ↔ s.Child p c ∧ s.isNode c = true := by
  obtain ⟨n, rows, hshows, _⟩ := h.shows p hp
  rw [hshows.child, hshows.childNode h.grounded]

theorem Rooted.of_childNode (h : s.Rooted made) (hs : s.Sound made) {p c : ObjectId} (hp : p ∈ made)
    (hc : s.ChildNode p c) : c ∈ made ∧ s.parent? c = some p := by
  obtain ⟨hchild, hn⟩ := (hs.childNode hp).mp hc
  exact ⟨h.known p hp c hchild hn, ((hs.linked p hp c hchild).node hn).1⟩

/-- Everything below a returned source file was returned, and the file is recorded for it. -/
theorem Rooted.recorded_of_reaches (h : s.Rooted made) (hs : s.Sound made) {root m : ObjectId} (hroot : root ∈ made)
    (hfile : s.isSourceFile root = true) (hm : s.Reaches root m) : m ∈ made ∧ s.recorded? m = some root := by
  induction hm with
  | refl => exact ⟨hroot, h.file root hroot hfile⟩
  | tail _ hc ih =>
    obtain ⟨hp, hrecorded⟩ := ih
    obtain ⟨hknown, hparent⟩ := h.of_childNode hs hp hc
    exact ⟨hknown, by rw [h.same _ _ hparent hp, hrecorded]⟩

/-! ## Runs -/

/-- The children of what a genuine call makes that are nodes were returned before. -/
theorem genuine_children {c : Call} (hc : c.Genuine s made) {r : Except Failure ObjectId} (hrun : c.run s = (r, t))
    (ht : t.Grounded) {id : ObjectId} {n : Node} {rows : List Row} (hnew : s.size ≤ id) (hshows : t.Shows id n rows) :
    ∀ x ∈ rows.flatMap Row.children, t.isNode x = true → x ∈ made := by
  intro x hx hn
  obtain ⟨slot, place, hstands⟩ := (hshows.exists_standsAt ht).mpr (hshows.child.mpr hx)
  have hgenuine := hc id x slot place hnew
  rw [hrun] at hgenuine
  exact hgenuine (hshows.isNode ht) hstands hn

/-- Likewise if the call records a source file as well. -/
theorem genuine_children_recordRoot {c : Call} (hc : c.Genuine s made) {r : Except Failure ObjectId} {p : Plan}
    {input : Input} {id root : ObjectId} {n : Node} {rows : List Row} {nodes : List ObjectId}
    (hrun : c.run s = (r, t.recordRoot root nodes)) (hmade : s.Made p input id n rows t) :
    ∀ x ∈ rows.flatMap Row.children, t.isNode x = true → x ∈ made := by
  have hgrown := hmade.grown.recordRoot root nodes
  have hshows := hmade.shows.keeps hmade.grown.grounded (keeps_recordRoot t root nodes)
  intro x hx hn
  refine genuine_children hc hrun hgrown.grounded hmade.new hshows x hx ?_
  rw [isNode_recordRoot]
  exact hn

theorem recorded?_empty (id : ObjectId) : Store.empty.recorded? id = none := by
  rw [recorded?]
  cases hc : Store.empty.cell? id with
  | none => rfl
  | some c => exact (unlinked_empty hc).2

theorem rooted_empty : Store.empty.Rooted [] where
  known := nofun
  above c root hroot := by rw [recorded?_empty] at hroot; cases hroot
  same c p _ hp := nomatch hp
  file := nofun

/-- The source files that are recorded agree with the links in every store that can be reached by harmless and genuine
calls. -/
theorem Reached.rooted {allowed : Store → List ObjectId → Call → Prop} (h : Reached allowed s made)
    (hallowed : ∀ {s made c}, allowed s made c → c.Harmless s ∧ c.Genuine s made) : s.Rooted made := by
  induction h with
  | empty => exact rooted_empty
  | between reached untouched ih =>
    exact ih.grown (reached.sound fun h => (hallowed h).1) untouched.grown untouched.recorded
  | @returned s t made c id reached given isAllowed run ih =>
    have hs := reached.sound fun h => (hallowed h).1
    obtain ⟨hh, hgenuine⟩ := hallowed isAllowed
    have hv := lt_size_of_object? given.variant
    cases c with
    | node v input =>
      rcases create_spec hs.grounded hs.closed hv given.input hh with
        ⟨_, n, rows, u, hrun, hmade, _, hfile⟩ | ⟨failure, u, hrun, _⟩
      · cases run.symm.trans hrun
        exact ih.returned hs hmade (genuine_children hgenuine run hmade.grown.grounded hmade.new hmade.shows)
          (by rw [Node.isSourceFile, hfile]; rfl)
      · cases run.symm.trans hrun
    | file g source input =>
      rcases createSourceFile_spec hs.grounded hs.closed hv source given.input hh with
        ⟨_, n, rows, u, nodes, hrun, hmade, _, ⟨endOfFile, hfile, _⟩, hnodes⟩ | ⟨failure, u, hrun, _⟩ |
        ⟨failure, _, n, rows, u, nodes, hrun, _⟩
      · cases run.symm.trans hrun
        exact ih.returnedFile hs hmade (genuine_children_recordRoot hgenuine run hmade)
          (by rw [Node.isSourceFile, hfile]; rfl) hnodes
      · cases run.symm.trans hrun
      · cases run.symm.trans hrun
  | @refused s t made c failure reached given isAllowed run ih =>
    have hs := reached.sound fun h => (hallowed h).1
    obtain ⟨hh, hgenuine⟩ := hallowed isAllowed
    have hv := lt_size_of_object? given.variant
    cases c with
    | node v input =>
      rcases create_spec hs.grounded hs.closed hv given.input hh with
        ⟨_, n, rows, u, hrun, _⟩ | ⟨failure, u, hrun, ⟨_, rfl⟩ | hfails⟩
      · cases run.symm.trans hrun
      · cases run.symm.trans hrun
        exact ih
      · cases run.symm.trans hrun
        obtain ⟨q, cs, hgrown⟩ := hfails.grown
        exact ih.grown hs hgrown hfails.recorded
    | file g source input =>
      rcases createSourceFile_spec hs.grounded hs.closed hv source given.input hh with
        ⟨_, n, rows, u, nodes, hrun, _⟩ | ⟨failure, u, hrun, hfails⟩ |
        ⟨failure, id, n, rows, u, nodes, hrun, hmade, hnodes⟩
      · cases run.symm.trans hrun
      · cases run.symm.trans hrun
        obtain ⟨q, cs, hgrown⟩ := hfails.grown
        exact ih.grown hs hgrown hfails.recorded
      · exact absurd hnodes
          (ih.nodesOf_ne_failure hs hmade (genuine_children_recordRoot hgenuine hrun hmade) nodes failure)

end Store

end LosslessSyntax
