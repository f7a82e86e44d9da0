import LosslessSyntax.Proofs.Making
import Mathlib.Data.List.Pairwise

/-!
# Stores of trees

The stores that can be reached by calls of `create` and `createSourceFile`, in any order, for any grammars and inputs,
refused calls among them. `Store.Reached` keeps the nodes that were returned beside the store. Between the calls other
objects may be made (`Store.Untouched`), but no object changes other than by a call.

`Store.Sound` is what every call preserves: a returned node shows its children, each child knows its parent or at least
that it has one, and parents are younger than their children. `Store.Forest` is what it says of parents and slots: a
node has a parent if and only if it stands in a slot of it, nothing stands in two places, no source file stands in a
slot, and parent chains end.

Every call has to be harmless for this: an error that is given for a slot with the name of the base can be changed by a
slot with the name of a member of errors, and so by a call that is refused.
-/

namespace LosslessSyntax

/-- A call that makes a node or a source file. -/
inductive Call where
  | node (variant : Variant) (input : Input)
  | file (grammar : Grammar) (source : Source) (input : Input)

namespace Call

/-- The variant that a call makes a node of. -/
def variant : Call → Variant
  | .node v _ => v
  | .file g _ _ => g.sourceFile

def input : Call → Input
  | .node _ i => i
  | .file _ _ i => i

def run : Call → Building ObjectId
  | .node v i => Store.create v i
  | .file g source i => Store.createSourceFile g source i

/-- A call that can be made: its variant and what is given for the slots are in the store. -/
structure Given (c : Call) (s : Store) : Prop where
  variant : s.object? c.variant.self = some (.variant c.variant)
  input : ∀ slot, (c.input.read slot).Within s.size

/-- A call that changes no object that is there. -/
def Harmless (c : Call) (s : Store) : Prop := c.input.Harmless s c.variant.layout

end Call

namespace Store

variable {s t : Store} {made : List ObjectId}

/-! ## Runs -/

/-- Objects may have been made, but no other one has changed, nor has a link. -/
structure Untouched (s t : Store) : Prop where
  keeps : s.Keeps t
  grounded : t.Grounded
  closed : t.Closed
  parent : ∀ id : Nat, t.parent? id = s.parent? id
  recorded : ∀ id : Nat, t.recorded? id = s.recorded? id
  owned : ∀ id : Nat, t.isOwned id = s.isOwned id

theorem Untouched.grown (h : s.Untouched t) : s.Grown t 0 [] where
  keeps := h.keeps
  grounded := h.grounded
  closed := h.closed
  new hne := absurd rfl hne
  below := nofun
  nodes := nofun
  others := nofun
  parent id := by simpa using h.parent id
  owned id := by simpa using h.owned id

/-- New objects without links that extend old ones leave everything else untouched. -/
theorem untouched_of_new (hs : s.Grounded) (hc : s.Closed) (hold : s.Extends t)
    (hnew : ∀ {id : Nat} {c : Cell}, s.size ≤ id → t.cell? id = some c →
      (c.parent = none ∧ c.root = none ∧ c.owned = false) ∧ c.object.Refers t.size ∧ ∀ b, c.base = some b → b < s.size) :
    s.Untouched t := by
  have hfresh : s.Fresh t :=
    { old := hold
      grounded := hs.of_keeps hold.keeps fun {id} hge hlt => by
        obtain ⟨c, hcell⟩ := exists_cell hlt
        obtain ⟨n, hn, hle⟩ : ∃ n, t.size = n + 1 ∧ s.size ≤ n := by
          have := Nat.lt_of_le_of_lt hge hlt
          exact ⟨t.size - 1, by omega, by omega⟩
        rw [hn]
        refine ⟨hlt, fun b hb => ?_⟩
        rw [base?, hcell] at hb
        exact ((hs.ends ((hnew hge hcell).2.2 b hb)).keeps hold.keeps).mono hle
      closed := ⟨fun {id o} ho => by
        rcases Nat.lt_or_ge id s.size with hlt | hge
        · rw [hold.keeps.object hlt] at ho
          exact (hc.refers ho).mono hold.size_le
        · obtain ⟨c, hcell, rfl⟩ := Option.map_eq_some_iff.mp ho
          exact (hnew hge hcell).2.1⟩
      unlinked := fun hge hcell => (hnew hge hcell).1 }
  exact ⟨hold.keeps, hfresh.grounded, hfresh.closed, hfresh.parent?, hfresh.recorded?, hfresh.isOwned⟩

/-- New objects of any kind leave everything else untouched. -/
theorem untouched_addAll (hs : s.Grounded) (hc : s.Closed) {os : List Object}
    (hos : ∀ o ∈ os, o.Refers (s.size + os.length)) : s.Untouched (s.addAll os) := by
  have hold : s.Extends (s.addAll os) :=
    ⟨by rw [size_addAll]; omega, fun {id} hid => by rw [cell?_addAll, if_pos hid]⟩
  refine untouched_of_new hs hc hold fun hge hcell => ?_
  rw [cell?_addAll, if_neg (Nat.not_lt_of_le hge)] at hcell
  obtain ⟨o, ho, rfl⟩ := Option.map_eq_some_iff.mp hcell
  refine ⟨⟨rfl, rfl, rfl⟩, size_addAll s os ▸ hos o (List.mem_of_getElem? ho), fun b hb => ?_⟩
  obtain ⟨g, rfl⟩ := Object.base?_ground hb
  exact hs.ground_lt g

/-- A store that can be reached by calls that are allowed, with the nodes that they have returned. -/
inductive Reached (allowed : Store → List ObjectId → Call → Prop) : Store → List ObjectId → Prop
  | empty : Reached allowed .empty []
  | between {s t : Store} {made : List ObjectId} (reached : Reached allowed s made) (untouched : s.Untouched t) :
      Reached allowed t made
  | returned {s t : Store} {made : List ObjectId} {c : Call} {id : ObjectId} (reached : Reached allowed s made)
      (given : c.Given s) (isAllowed : allowed s made c) (run : c.run s = (.ok id, t)) : Reached allowed t (id :: made)
  | refused {s t : Store} {made : List ObjectId} {c : Call} {failure : Failure} (reached : Reached allowed s made)
      (given : c.Given s) (isAllowed : allowed s made c) (run : c.run s = (.error failure, t)) : Reached allowed t made

theorem Reached.mono {allowed allowed' : Store → List ObjectId → Call → Prop} (h : Reached allowed s made)
    (hle : ∀ s made c, allowed s made c → allowed' s made c) : Reached allowed' s made := by
  induction h with
  | empty => exact .empty
  | between _ untouched ih => exact .between ih untouched
  | returned _ given isAllowed run ih => exact .returned ih given (hle _ _ _ isAllowed) run
  | refused _ given isAllowed run ih => exact .refused ih given (hle _ _ _ isAllowed) run

theorem Reached.congr_made {allowed : Store → List ObjectId → Call → Prop} {made' : List ObjectId}
    (h : Reached allowed s made) (hmade : made = made') : Reached allowed s made' := hmade ▸ h

/-- What a call leaves can be reached, whatever it comes to. -/
theorem Reached.run {allowed : Store → List ObjectId → Call → Prop} (h : Reached allowed s made) {c : Call}
    (hgiven : c.Given s) (hallowed : allowed s made c) :
    Reached allowed (c.run s).2 ((c.run s).1.toOption.toList ++ made) := by
  cases hrun : (c.run s).1 with
  | ok id => exact .returned h hgiven hallowed (Prod.ext hrun rfl)
  | error failure => exact .refused h hgiven hallowed (Prod.ext hrun rfl)

/-- What a call that can be made comes to, as far as links and slots go. -/
theorem run_spec (hs : s.Grounded) (hc : s.Closed) {c : Call} (hgiven : c.Given s) (hh : c.Harmless s) :
    (∃ id n rows t, c.run s = (.ok id, t) ∧ s.size ≤ id ∧ s.Grown t id (rows.flatMap Row.children) ∧
        t.Shows id n rows ∧ (rows.flatMap Row.children).Nodup ∧ (c.input.Unshadowed s c.variant.layout →
          ∀ x ∈ rows.flatMap Row.children, s.isElement (.object x) = true)) ∨
      ∃ failure q cs t, c.run s = (.error failure, t) ∧ s.Grown t q cs := by
  have hv := lt_size_of_object? hgiven.variant
  cases c with
  | node v input =>
    rcases create_spec hs hc hv hgiven.input hh with
      ⟨id, n, rows, t, hrun, hmade, _⟩ | ⟨failure, t, hrun, ⟨_, rfl⟩ | hfails⟩
    · exact .inl ⟨id, n, rows, t, hrun, hmade.new, hmade.grown, hmade.shows, hmade.nodup, hmade.elements⟩
    · exact .inr ⟨failure, 0, [], t, hrun, (Fresh.refl hs hc).grown⟩
    · obtain ⟨q, cs, hgrown⟩ := hfails.grown
      exact .inr ⟨failure, q, cs, t, hrun, hgrown⟩
  | file g source input =>
    rcases createSourceFile_spec hs hc hv source hgiven.input hh with
      ⟨id, n, rows, u, nodes, hrun, hmade, _⟩ | ⟨failure, t, hrun, hfails⟩ |
      ⟨failure, id, n, rows, u, nodes, hrun, hmade, _⟩
    · exact .inl ⟨id, n, rows, _, hrun, hmade.new, hmade.grown.recordRoot id nodes,
        hmade.shows.keeps hmade.grown.grounded (keeps_recordRoot ..), hmade.nodup, hmade.elements⟩
    · obtain ⟨q, cs, hgrown⟩ := hfails.grown
      exact .inr ⟨failure, q, cs, t, hrun, hgrown⟩
    · exact .inr ⟨failure, id, _, _, hrun, hmade.grown.recordRoot id nodes⟩

/-! ## What calls preserve -/

/-- An object stands in a slot of a node. -/
def Child (s : Store) (p c : ObjectId) : Prop := ∃ n rows, s.Shows p n rows ∧ c ∈ rows.flatMap Row.children

/-- The links of what stands in a slot of a node. -/
structure LinkedTo (s : Store) (p c : ObjectId) : Prop where
  node : s.isNode c = true → s.parent? c = some p ∧ s.isSourceFile c = false
  other : s.isNode c = false → s.isOwned c = true

/-- A store in which the links of returned nodes agree with their slots. -/
structure Sound (s : Store) (made : List ObjectId) : Prop where
  grounded : s.Grounded
  closed : s.Closed
  shows : ∀ p ∈ made, ∃ n rows, s.Shows p n rows ∧ (rows.flatMap Row.children).Nodup
  linked : ∀ p ∈ made, ∀ c, s.Child p c → s.LinkedTo p c
  single : ∀ p ∈ made, ∀ p' ∈ made, ∀ c, s.Child p c → s.Child p' c → p = p'
  younger : ∀ c p : Nat, s.parent? c = some p → c < p ∧ p < s.size
  isNode : ∀ c p, s.parent? c = some p → s.isNode c = true
  stands : ∀ c p, s.parent? c = some p → p ∈ made → s.Child p c

theorem Shows.child {p : ObjectId} {n : Node} {rows : List Row} (h : s.Shows p n rows) {c : ObjectId} :
    s.Child p c ↔ c ∈ rows.flatMap Row.children := by
  refine ⟨?_, fun hmem => ⟨n, rows, h, hmem⟩⟩
  rintro ⟨n', rows', h', hmem⟩
  rwa [(h.unique h').2]

theorem Child.lt_size (hc : s.Closed) {p c : ObjectId} (h : s.Child p c) : c < s.size := by
  obtain ⟨n, rows, hshows, hmem⟩ := h
  exact hshows.child_lt hc hmem

namespace Sound

theorem lt_size (h : s.Sound made) {p : ObjectId} (hp : p ∈ made) : p < s.size := by
  obtain ⟨n, rows, hshows, _⟩ := h.shows p hp
  exact hshows.lt_size

/-- Returned nodes have the children that they had. -/
theorem child_keeps (h : s.Sound made) (hk : s.Keeps t) {p : ObjectId} (hp : p ∈ made) (c : ObjectId) :
    t.Child p c ↔ s.Child p c := by
  obtain ⟨n, rows, hshows, _⟩ := h.shows p hp
  rw [hshows.child, (hshows.keeps h.grounded hk).child]

/-- A child keeps its links when other objects are linked. -/
theorem linked_grown (h : s.Sound made) {q : ObjectId} {cs : List ObjectId} (hg : s.Grown t q cs) {p c : ObjectId}
    (hp : p ∈ made) (hchild : s.Child p c) : t.LinkedTo p c ∧ c ∉ cs := by
  have hlt := hchild.lt_size h.closed
  have hlinked := h.linked p hp c hchild
  have hnode := h.grounded.isNode_keeps hg.keeps hlt
  have hfile := h.grounded.isSourceFile_keeps hg.keeps hlt
  have hfree : c ∉ cs := by
    intro hmem
    cases hn : t.isNode c with
    | true =>
      have := (hlinked.node (by rw [← hnode, hn])).1
      rw [(hg.nodes c hmem hn).2] at this
      cases this
    | false =>
      have := hlinked.other (by rw [← hnode, hn])
      rw [hg.others c hmem hn] at this
      cases this
  refine ⟨⟨fun hn => ?_, fun hn => ?_⟩, hfree⟩
  · rw [hg.parent c, if_neg fun h => hfree h.1, hfile]
    exact hlinked.node (by rw [← hnode, hn])
  · rw [hg.owned c, hlinked.other (by rw [← hnode, hn])]
    rfl

/-- Whatever else is linked to something that was not returned, the links of returned nodes agree with their slots. -/
theorem grown (h : s.Sound made) {q : ObjectId} {cs : List ObjectId} (hg : s.Grown t q cs) : t.Sound made where
  grounded := hg.grounded
  closed := hg.closed
  shows p hp := by
    obtain ⟨n, rows, hshows, hnodup⟩ := h.shows p hp
    exact ⟨n, rows, hshows.keeps h.grounded hg.keeps, hnodup⟩
  linked p hp c hchild := (h.linked_grown hg hp ((h.child_keeps hg.keeps hp c).mp hchild)).1
  single p hp p' hp' c hchild hchild' := h.single p hp p' hp' c ((h.child_keeps hg.keeps hp c).mp hchild)
    ((h.child_keeps hg.keeps hp' c).mp hchild')
  younger c p hparent := by
    rw [hg.parent c] at hparent
    split at hparent
    · rename_i hc
      cases hparent
      exact ⟨hg.below c hc.1, (hg.new (List.ne_nil_of_mem hc.1)).2⟩
    · obtain ⟨hlt, hp⟩ := h.younger c p hparent
      exact ⟨hlt, Nat.lt_of_lt_of_le hp hg.keeps.size_le⟩
  isNode c p hparent := by
    rw [hg.parent c] at hparent
    split at hparent
    · rename_i hc
      exact hc.2
    · have hn := h.isNode c p hparent
      rwa [h.grounded.isNode_keeps hg.keeps (lt_size_of_isNode hn)]
  stands c p hparent hp := by
    rw [hg.parent c] at hparent
    split at hparent
    · rename_i hc
      cases hparent
      exact absurd (h.lt_size hp) (Nat.not_lt_of_le (hg.new (List.ne_nil_of_mem hc.1)).1)
    · exact (h.child_keeps hg.keeps hp c).mpr (h.stands c p hparent hp)

/-- The links of a node that is returned agree with its slots as well. -/
theorem returned (h : s.Sound made) {id : ObjectId} {n : Node} {rows : List Row} (hnew : s.size ≤ id)
    (hg : s.Grown t id (rows.flatMap Row.children)) (hshows : t.Shows id n rows)
    (hnodup : (rows.flatMap Row.children).Nodup) : t.Sound (id :: made) := by
  have ht := h.grown hg
  have hlinked : ∀ c, t.Child id c → t.LinkedTo id c := by
    intro c hchild
    have hmem := hshows.child.mp hchild
    refine ⟨fun hn => ⟨?_, (hg.nodes c hmem hn).1⟩, fun hn => ?_⟩
    · rw [hg.parent c, if_pos ⟨hmem, hn⟩]
    · rw [hg.owned c, hn]
      simp [hmem]
  have hfree : ∀ p ∈ made, ∀ c, t.Child p c → ¬ t.Child id c := fun p hp c hchild hchild' =>
    (h.linked_grown hg hp ((h.child_keeps hg.keeps hp c).mp hchild)).2 (hshows.child.mp hchild')
  exact
    { grounded := ht.grounded
      closed := ht.closed
      shows := by
        rintro p (_ | ⟨_, hp⟩)
        · exact ⟨n, rows, hshows, hnodup⟩
        · exact ht.shows p hp
      linked := by
        rintro p (_ | ⟨_, hp⟩)
        · exact hlinked
        · exact ht.linked p hp
      single := by
        rintro p (_ | ⟨_, hp⟩) p' (_ | ⟨_, hp'⟩) c hchild hchild'
        · rfl
        · exact absurd hchild (hfree p' hp' c hchild')
        · exact absurd hchild' (hfree p hp c hchild)
        · exact ht.single p hp p' hp' c hchild hchild'
      younger := ht.younger
      isNode := ht.isNode
      stands := by
        rintro c p hparent (_ | ⟨_, hp⟩)
        · rw [hg.parent c] at hparent
          split at hparent
          · rename_i hc
            exact hshows.child.mpr hc.1
          · exact absurd (h.younger c id hparent).2 (Nat.not_lt_of_le hnew)
        · exact ht.stands c p hparent hp }

end Sound

/-- At first nothing is linked. -/
theorem unlinked_empty {id : ObjectId} {c : Cell} (h : Store.empty.cell? id = some c) :
    c.parent = none ∧ c.root = none := by
  have hmem := Array.mem_of_getElem? h
  simp only [Store.empty, List.mem_toArray, List.mem_map] at hmem
  obtain ⟨g, _, rfl⟩ := hmem
  exact ⟨rfl, rfl⟩

theorem parent?_empty (id : ObjectId) : Store.empty.parent? id = none := by
  rw [parent?]
  cases hc : Store.empty.cell? id with
  | none => rfl
  | some c => exact (unlinked_empty hc).1

theorem sound_empty : Store.empty.Sound [] where
  grounded := grounded_empty
  closed := closed_empty
  shows := nofun
  linked := nofun
  single := nofun
  younger c p hparent := by rw [parent?_empty] at hparent; cases hparent
  isNode c p hparent := by rw [parent?_empty] at hparent; cases hparent
  stands c p _ hp := nomatch hp

/-- Every store that can be reached by harmless calls is sound. -/
theorem Reached.sound {allowed : Store → List ObjectId → Call → Prop} (h : Reached allowed s made)
    (hallowed : ∀ {s made c}, allowed s made c → c.Harmless s) : s.Sound made := by
  induction h with
  | empty => exact sound_empty
  | between _ untouched ih => exact ih.grown untouched.grown
  | returned _ given isAllowed run ih =>
    rcases run_spec ih.grounded ih.closed given (hallowed isAllowed) with
      ⟨id, n, rows, t, hrun, hnew, hgrown, hshows, hnodup, _⟩ | ⟨failure, q, cs, t, hrun, hgrown⟩
    · rw [run] at hrun
      cases hrun
      exact ih.returned hnew hgrown hshows hnodup
    · rw [run] at hrun
      cases hrun
  | refused _ given isAllowed run ih =>
    rcases run_spec ih.grounded ih.closed given (hallowed isAllowed) with
      ⟨id, n, rows, t, hrun, hnew, hgrown, hshows, hnodup, _⟩ | ⟨failure, q, cs, t, hrun, hgrown⟩
    · rw [run] at hrun
      cases hrun
    · rw [run] at hrun
      cases hrun
      exact ih.grown hgrown

/-- What holds of a node when it is returned, and is kept when links are set, holds of every returned node. -/
theorem Reached.forall_returned {allowed : Store → List ObjectId → Call → Prop}
    (hallowed : ∀ {s made c}, allowed s made c → c.Harmless s) {P : Store → ObjectId → Prop}
    (hnew : ∀ {s made c id t}, s.Sound made → c.Given s → allowed s made c → c.run s = (.ok id, t) → P t id)
    (hkept : ∀ {s t made id}, s.Sound made → s.Keeps t → id ∈ made → P s id → P t id) (h : Reached allowed s made) :
    ∀ id ∈ made, P s id := by
  induction h with
  | empty => exact List.forall_mem_nil _
  | between reached untouched ih =>
    exact fun id hid => hkept (reached.sound hallowed) untouched.keeps hid (ih id hid)
  | returned reached given isAllowed run ih =>
    have hs := reached.sound hallowed
    refine List.forall_mem_cons.mpr ⟨hnew hs given isAllowed run, fun id hid => ?_⟩
    rcases run_spec hs.grounded hs.closed given (hallowed isAllowed) with
      ⟨_, _, _, _, hrun, _, hgrown, _⟩ | ⟨_, _, _, _, hrun, _⟩
    · cases run.symm.trans hrun
      exact hkept hs hgrown.keeps hid (ih id hid)
    · cases run.symm.trans hrun
  | refused reached given isAllowed run ih =>
    have hs := reached.sound hallowed
    rcases run_spec hs.grounded hs.closed given (hallowed isAllowed) with
      ⟨_, _, _, _, hrun, _⟩ | ⟨_, _, _, _, hrun, hgrown⟩
    · cases run.symm.trans hrun
    · cases run.symm.trans hrun
      exact fun id hid => hkept hs hgrown.keeps hid (ih id hid)

/-! ## Parents and slots -/

/-- An object stands in a slot of a node, at a place of the list there or as all there is. -/
def StandsAt (s : Store) (c p : ObjectId) (slot : Text) (place : Nat) : Prop :=
  ∃ slots content met, s.contents (.object p) = .ok slots ∧ (slot, content) ∈ slots ∧ s.iterated content = .ok met ∧
    met.get? place = some (.object c)

/-- Of returned nodes, one is the parent of another if and only if that one stands in a slot of it; nothing stands in
two places, no source file stands in any, and every parent chain ends. -/
structure Forest (s : Store) (made : List ObjectId) : Prop where
  parent_iff : ∀ c ∈ made, ∀ p ∈ made, s.parent? c = some p ↔ ∃ slot place, s.StandsAt c p slot place
  once : ∀ {c p p' slot slot' place place'}, p ∈ made → p' ∈ made → s.StandsAt c p slot place →
    s.StandsAt c p' slot' place' → p = p' ∧ slot = slot' ∧ place = place'
  notSourceFile : ∀ {c p slot place}, p ∈ made → s.StandsAt c p slot place → s.isSourceFile c = false
  chains : WellFounded fun p c => s.parent? c = some p

theorem Shows.standsAt (hs : s.Grounded) {p : ObjectId} {n : Node} {rows : List Row} (h : s.Shows p n rows)
    {c : ObjectId} {slot : Text} {place : Nat} :
    s.StandsAt c p slot place ↔ ∃ row ∈ rows, row.slot = slot ∧ row.children[place]? = some c := by
  have hget : ∀ row : Row, (Sequence.ofList (row.children.map .object)).get? place = some (.object c) ↔
      row.children[place]? = some c := by
    intro row
    simp [Sequence.get?_ofList]
  constructor
  · rintro ⟨slots, content, met, hslots, hmem, hmet, hplace⟩
    rw [h.contents hs] at hslots
    cases hslots
    obtain ⟨row, hrow, heq⟩ := List.mem_map.mp hmem
    cases heq
    rw [h.iterated_content hrow] at hmet
    cases hmet
    exact ⟨row, hrow, rfl, (hget row).mp hplace⟩
  · rintro ⟨row, hrow, rfl, hplace⟩
    exact ⟨_, row.content, _, h.contents hs, List.mem_map.mpr ⟨row, hrow, rfl⟩, h.iterated_content hrow,
      (hget row).mpr hplace⟩

theorem Shows.exists_standsAt (hs : s.Grounded) {p : ObjectId} {n : Node} {rows : List Row} (h : s.Shows p n rows)
    {c : ObjectId} : (∃ slot place, s.StandsAt c p slot place) ↔ s.Child p c := by
  rw [h.child, List.mem_flatMap]
  constructor
  · rintro ⟨slot, place, hstands⟩
    obtain ⟨row, hrow, _, hplace⟩ := (h.standsAt hs).mp hstands
    exact ⟨row, hrow, List.mem_of_getElem? hplace⟩
  · rintro ⟨row, hrow, hmem⟩
    obtain ⟨place, hplace⟩ := List.mem_iff_getElem?.mp hmem
    exact ⟨row.slot, place, (h.standsAt hs).mpr ⟨row, hrow, rfl, hplace⟩⟩

/-- A child of a node stands in one place of it. -/
theorem Shows.standsAt_unique (hs : s.Grounded) {p : ObjectId} {n : Node} {rows : List Row} (h : s.Shows p n rows)
    (hnodup : (rows.flatMap Row.children).Nodup) {c : ObjectId} {slot slot' : Text} {place place' : Nat}
    (hstands : s.StandsAt c p slot place) (hstands' : s.StandsAt c p slot' place') : slot = slot' ∧ place = place' := by
  obtain ⟨row, hrow, rfl, hplace⟩ := (h.standsAt hs).mp hstands
  obtain ⟨row', hrow', rfl, hplace'⟩ := (h.standsAt hs).mp hstands'
  obtain ⟨hrows, hdisjoint⟩ := List.nodup_flatMap.mp hnodup
  have hsame : row = row' := by
    by_contra hne
    have hsymm : Std.Symm (Function.onFun List.Disjoint Row.children) := ⟨fun _ _ h => h.symm⟩
    exact hdisjoint.forall hrow hrow' hne (List.mem_of_getElem? hplace) (List.mem_of_getElem? hplace')
  subst hsame
  refine ⟨rfl, ?_⟩
  exact (List.getElem?_inj (List.getElem?_eq_some_iff.mp hplace).1 (hrows row hrow)).mp (hplace.trans hplace'.symm)

/-- The links and slots of a sound store are those of a forest. -/
theorem Sound.forest (h : s.Sound made) : s.Forest made where
  parent_iff c hc p hp := by
    obtain ⟨n, rows, hshows, _⟩ := h.shows p hp
    rw [hshows.exists_standsAt h.grounded]
    refine ⟨fun hparent => h.stands c p hparent hp, fun hchild => ?_⟩
    obtain ⟨n', rows', hshows', _⟩ := h.shows c hc
    exact ((h.linked p hp c hchild).node (hshows'.isNode h.grounded)).1
  once {c p p' slot slot' place place'} hp hp' hstands hstands' := by
    obtain ⟨n, rows, hshows, hnodup⟩ := h.shows p hp
    obtain ⟨n', rows', hshows', _⟩ := h.shows p' hp'
    have hchild := (hshows.exists_standsAt h.grounded).mp ⟨slot, place, hstands⟩
    have hchild' := (hshows'.exists_standsAt h.grounded).mp ⟨slot', place', hstands'⟩
    obtain rfl := h.single p hp p' hp' c hchild hchild'
    exact ⟨rfl, hshows.standsAt_unique h.grounded hnodup hstands hstands'⟩
  notSourceFile {c p slot place} hp hstands := by
    obtain ⟨n, rows, hshows, _⟩ := h.shows p hp
    have hlinked := h.linked p hp c ((hshows.exists_standsAt h.grounded).mp ⟨slot, place, hstands⟩)
    cases hn : s.isNode c with
    | true => exact (hlinked.node hn).2
    | false =>
      refine Bool.eq_false_iff.mpr fun hfile => ?_
      rw [h.grounded.isNode_of_isSourceFile hfile] at hn
      cases hn
  chains := by
    -- Parents are younger than their children, and there are no objects beyond the store.
    refine Subrelation.wf (r := InvImage (· < ·) fun id : Nat => s.size - id) ?_ (InvImage.wf _ Nat.lt_wfRel.wf)
    intro p c hparent
    obtain ⟨hlt, hp⟩ := h.younger c p hparent
    show s.size - p < s.size - c
    omega

/-- The store of every run of harmless calls holds a forest. -/
theorem forest_of_reached (h : Reached (fun s _ c => c.Harmless s) s made) : s.Forest made := (h.sound id).forest

end Store

/-! ## Two runs -/

namespace Sample

open Store

/-- A kind of node with one slot. -/
def leaf : Variant := { self := 6, kind := 1, name := "Leaf", layout := [("word", Layout.one)], isSourceFile := false }

/-- A kind of source file. -/
def document : Variant :=
  { self := 8, kind := 0, name := "Document", layout := [("body", Layout.many), (endOfFileSlot, Layout.one)]
    isSourceFile := true }

/-- A kind of node with slots for a base and for the stack text of an error. -/
def hook : Variant :=
  { self := 10, kind := 2, name := "Hook", layout := [(baseName, Layout.one), ("stack", Layout.one)]
    isSourceFile := false }

def grammar : Grammar :=
  { self := 0, tokenKinds := .empty, nodeKinds := .empty, variants := [document, leaf, hook], sourceFile := document
    endOfFileKind := 0 }

/-- Three variants with their layouts, four tokens and an error that has the members of a token. -/
def objects : List Object :=
  [.variant leaf, .ofMembers leaf.layout, .variant document, .ofMembers document.layout, .variant hook,
    .ofMembers hook.layout, .token ⟨.ofNat 1, 0, 0, 1⟩, .token ⟨.ofNat 1, 1, 1, 1⟩, .token ⟨.ofNat 1, 1, 1, 1⟩,
    .token ⟨.ofNat 0, 2, 2, 0⟩,
    .error none [("message", .text "m"), ("stack", .text "Error: m")]
      [("tag", .text "token"), ("kind", .ofNat 1), ("fullStart", .number 0), ("start", .number 0),
        ("length", .number 1)]]

def stock : Store := Store.empty.addAll objects

theorem reached_stock (allowed : Store → List ObjectId → Call → Prop) : Reached allowed stock [] := by
  refine .between .empty (untouched_addAll grounded_empty closed_empty ?_)
  intro o ho
  simp only [objects, List.mem_cons, List.not_mem_nil, or_false] at ho
  rcases ho with rfl | rfl | rfl | rfl | rfl | rfl | rfl | rfl | rfl | rfl | rfl <;>
    exact Object.refers_of_members nofun (by decide)

/-- Makes a leaf of a token. -/
def leafCall (word : ObjectId) : Call := .node leaf (.ofMembers [("word", .one (.object word))])

/-- Makes a document of nodes and an end-of-file token. -/
def documentCall (source : Source) (body : List ObjectId) (endOfFile : ObjectId) : Call :=
  .file grammar source (.ofMembers [("body", .many (body.map .object)), (endOfFileSlot, .one (.object endOfFile))])

def letters : Source := ⟨"ab", by decide⟩

/-- Makes a node that extends the error, with a value for the other slot. -/
def hookCall (stack : Value) : Call :=
  .node hook (.ofMembers [(baseName, .one (.object 16)), ("stack", .one stack)])

/-- Two leaves, between them a call that is refused, and the document of both. -/
def planted : Store :=
  ((documentCall letters [18, 20] 15).run ((leafCall 13).run ((leafCall 12).run ((leafCall 12).run stock).2).2).2).2

theorem given_leafCall {s : Store} {word : Nat} (h : s.object? 6 = some (.variant leaf) ∧ word < s.size) :
    (leafCall word).Given s where
  variant := h.1
  input := Input.within_ofMembers (Nat.zero_lt_of_lt h.2) fun entry hentry => by
    rw [List.mem_singleton.mp hentry]
    exact h.2

theorem given_documentCall {s : Store} {source : Source} {body : List ObjectId} {endOfFile : Nat}
    (h : s.object? 8 = some (.variant document) ∧ endOfFile < s.size ∧ ∀ id ∈ body, id < s.size) :
    (documentCall source body endOfFile).Given s where
  variant := h.1
  input := Input.within_ofMembers (Nat.zero_lt_of_lt h.2.1) fun entry hentry => by
    rcases List.mem_cons.mp hentry with rfl | hlast
    · intro v hv
      obtain ⟨id, hid, rfl⟩ := List.mem_map.mp hv
      exact h.2.2 id hid
    · rw [List.mem_singleton.mp hlast]
      exact h.2.1

theorem given_hookCall {s : Store} {stack : Value}
    (h : s.object? 10 = some (.variant hook) ∧ 16 < s.size ∧ stack.Within s.size) : (hookCall stack).Given s where
  variant := h.1
  input := Input.within_ofMembers (Nat.zero_lt_of_lt h.2.1) fun entry hentry => by
    rcases List.mem_cons.mp hentry with rfl | hlast
    · exact h.2.1
    · rw [List.mem_singleton.mp hlast]
      exact h.2.2

theorem harmless_leafCall (s : Store) (word : ObjectId) : (leafCall word).Harmless s :=
  Input.harmless_of_plain (by decide : leaf.layout.has baseName = false) _

theorem harmless_documentCall (s : Store) (source : Source) (body : List ObjectId) (endOfFile : ObjectId) :
    (documentCall source body endOfFile).Harmless s :=
  Input.harmless_of_plain (by decide : document.layout.has baseName = false) _

/-- Makes an empty record that extends another object. -/
def extend (s : Store) (base : ObjectId) : Store :=
  (s.add (.ofMembers [])).2.modify s.size fun c => { c with base := some base }

/-- Makes a record that extends another object. -/
def extendWith (s : Store) (m : Members Value) (base : ObjectId) : Store :=
  (s.add (.ofMembers m)).2.modify s.size fun c => { c with base := some base }

/-- Makes an object that extends another one instead of what its kind extends. -/
def addOn (s : Store) (o : Object) (base : ObjectId) : Store :=
  (s.add o).2.modify s.size fun c => { c with base := some base }

theorem untouched_addOn {s : Store} (hs : s.Grounded) (hc : s.Closed) {o : Object} (ho : o.Refers (s.size + 1))
    (base : Nat) (hbase : base < s.size) : s.Untouched (addOn s o base) := by
  refine untouched_of_new hs hc (((Extends.refl s).add _).modify (Nat.le_refl _) _) fun {id c} hge hcell => ?_
  have hsize : (addOn s o base).size = s.size + 1 := by rw [addOn, size_modify, size_add]
  have hlt : id < s.size + 1 := hsize ▸ Nat.lt_of_not_le fun hle => by rw [cell?_eq_none hle] at hcell; cases hcell
  obtain rfl : id = s.size := by omega
  rw [addOn, cell?_modify, if_pos rfl, cell?_add, if_pos rfl] at hcell
  cases hcell
  refine ⟨⟨rfl, rfl, rfl⟩, hsize.symm ▸ ho, fun b hb => ?_⟩
  cases hb
  exact hbase

theorem untouched_extendWith {s : Store} (hs : s.Grounded) (hc : s.Closed) {m : Members Value}
    (hm : (Object.ofMembers m).Refers (s.size + 1)) (base : Nat) (hbase : base < s.size) :
    s.Untouched (extendWith s m base) := untouched_addOn hs hc hm base hbase

theorem untouched_extend {s : Store} (hs : s.Grounded) (hc : s.Closed) (base : Nat) (hbase : base < s.size) :
    s.Untouched (extend s base) :=
  untouched_extendWith (m := []) hs hc (Object.refers_of_members nofun nofun) base hbase

theorem forest_planted : Reached (fun s _ c => c.Harmless s) planted [23, 20, 18] ∧ planted.Forest [23, 20, 18] := by
  have hfirst := (reached_stock fun s _ c => c.Harmless s).run (given_leafCall (by decide +kernel))
    (harmless_leafCall _ 12)
  have hrefused := hfirst.run (given_leafCall (by decide +kernel)) (harmless_leafCall _ 12)
  have hsecond := hrefused.run (given_leafCall (by decide +kernel)) (harmless_leafCall _ 13)
  have hdocument := hsecond.run (given_documentCall (by decide +kernel)) (harmless_documentCall _ letters [18, 20] 15)
  have hplanted : Reached (fun s _ c => c.Harmless s) planted [23, 20, 18] :=
    hdocument.congr_made (by decide +kernel)
  exact ⟨hplanted, forest_of_reached hplanted⟩

/-- A leaf, a node that extends the error, and a second one, which is refused because the error belongs to the first. -/
def hooked : Store :=
  ((hookCall (.object 18)).run ((hookCall .null).run ((leafCall 12).run stock).2).2).2

theorem reached_hooked : Reached (fun _ _ _ => True) hooked [20, 18] := by
  have hleaf := (reached_stock fun _ _ _ => True).run (c := leafCall 12) (given_leafCall (by decide +kernel)) trivial
  have hhook := hleaf.run (c := hookCall .null) (given_hookCall (by decide +kernel)) trivial
  have hrefused := hhook.run (c := hookCall (.object 18)) (given_hookCall (by decide +kernel)) trivial
  exact hrefused.congr_made (by decide +kernel)

/-- The call that is refused puts the leaf into a slot of the first node, which is not its parent. -/
theorem not_forest_hooked : Reached (fun _ _ _ => True) hooked [20, 18] ∧ ¬ hooked.Forest [20, 18] := by
  refine ⟨reached_hooked, fun h => ?_⟩
  have hstands : hooked.StandsAt 18 20 "stack" 0 :=
    ⟨[(baseName, .object 16), ("stack", .object 18)], .object 18, .ofList [.object 18], rfl, by decide, rfl, rfl⟩
  have hparent := (h.parent_iff 18 (by decide) 20 (by decide)).mpr ⟨_, _, hstands⟩
  have hnone : hooked.parent? 18 = none := rfl
  rw [hnone] at hparent
  cases hparent

end Sample

end LosslessSyntax
