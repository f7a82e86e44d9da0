import LosslessSyntax.Proofs.Outline
import LosslessSyntax.Tree.Walk

/-!
# Walks and the recursive pre-order

A walk keeps a stack of cursors, each somewhere among the entries of one node, and a node that is entered at the next
pull. `Outline.events` is the same order by plain recursion on an outline: what a walk hands out, fails at and asks, one
event after the other.

* `Store.itemsFrom_after`: the cursor that comes with an item leads to what follows that item;
* `Walk.Remaining`: the events that are left for a walk, by its stack and the node to be entered;
* `Walk.next_remaining`: one pull takes the events up to the next one that ends a pull, and leaves the others;
* `Walk.pulls_eq_cut`: hence the pulls of a walk are its events, cut at each element and each failure.
-/

namespace LosslessSyntax

/-! ## The order of a walk -/

/-- What happens while a walk is pulled. -/
inductive Event where
  | asked (node : ObjectId) (answer : Bool)
  | yielded (element : Element)
  | thrown (failure : Failure)

namespace Event

/-- An element is handed out if the walk takes it. -/
def handing (accept : Accept) (e : Element) : List Event := if accept.takes e then [.yielded e] else []

/-- A node is asked about, if there is a predicate, and entered unless the answer is no. -/
def entering (predicate : Option (ObjectId → Bool)) (id : ObjectId) (inside : List Event) : List Event :=
  match predicate with
  | none => inside
  | some p => .asked id (p id) :: if p id then inside else []

/-- Questions in a row. -/
def questions (asked : List (ObjectId × Bool)) : List Event := asked.map fun (id, answer) => .asked id answer

/-- Cuts events into pulls, the first of which has begun with some questions: a pull ends with an element, a failure or
the end. -/
def cut (asked : List (ObjectId × Bool)) : List Event → List (List (ObjectId × Bool) × Outcome)
  | [] => [(asked, .done)]
  | .asked id answer :: rest => cut (asked ++ [(id, answer)]) rest
  | .yielded e :: rest => (asked, .yield e) :: cut [] rest
  | .thrown f :: rest => (asked, .failure f) :: cut [] rest

@[simp] theorem questions_nil : questions [] = [] := rfl

@[simp] theorem questions_append (qs rs : List (ObjectId × Bool)) :
    questions (qs ++ rs) = questions qs ++ questions rs := List.map_append

theorem cut_questions (asked qs : List (ObjectId × Bool)) (es : List Event) :
    cut asked (questions qs ++ es) = cut (asked ++ qs) es := by
  induction qs generalizing asked with
  | nil => simp
  | cons q qs ih =>
    show cut (asked ++ [(q.1, q.2)]) (questions qs ++ es) = _
    rw [ih, List.append_assoc]
    rfl

end Event

open Event

/-- The events of a walk over an outline: each entry in order, a node before what is below it. -/
def Outline.events (accept : Accept) (predicate : Option (ObjectId → Bool)) : Outline → List Event
  | .empty => []
  | .failure f rest => .thrown f :: rest.events accept predicate
  | .token id t rest => handing accept (.token id t) ++ rest.events accept predicate
  | .node id t below rest =>
    handing accept (.node id t) ++ entering predicate id (below.events accept predicate) ++ rest.events accept predicate

/-! ## Cursors -/

namespace Store

variable {s : Store}

theorem slotEntries_ascending (s : Store) (content : Value) : (s.slotEntries content).Pairwise (·.1 < ·.1) := by
  refine List.Pairwise.filter _ ?_
  cases s.items? content with
  | none => exact List.pairwise_singleton ..
  | some items => exact items.ascending

theorem slotEntries_of_not_isList {content : Value} (h : s.isList content = false) :
    s.slotEntries content = if content.isMissing then [] else [(0, content)] := by
  rw [← isSome_items?, Option.isSome_eq_false_iff, Option.isNone_iff_eq_none] at h
  rw [slotEntries, h]
  cases hm : content.isMissing <;> simp [hm]

/-- Among entries in order, those after the first one from a place on are those beyond its own place. -/
theorem filter_after {entries rest : List (Nat × Value)} {index : Nat} {entry : Nat × Value}
    (hasc : entries.Pairwise (·.1 < ·.1)) (h : entries.filter (index ≤ ·.1) = entry :: rest) :
    entries.filter (entry.1 + 1 ≤ ·.1) = rest := by
  induction hasc with
  | nil => cases h
  | @cons first more hfirst hmore ih =>
    by_cases hi : index ≤ first.1
    · rw [List.filter_cons_of_pos (by simpa using hi)] at h
      cases h
      have hall : ∀ place, place ≤ entry.1 + 1 → more.filter (place ≤ ·.1) = more := fun place hplace =>
        List.filter_eq_self.mpr fun e he => by have := hfirst e he; simp only [decide_eq_true_eq]; omega
      rw [List.filter_cons_of_neg (by simp), hall _ (Nat.le_refl _), hall index (by omega)]
    · rw [List.filter_cons_of_neg (by simpa using hi)] at h
      have hmem : entry ∈ more := (List.mem_filter.mp (h ▸ List.mem_cons_self)).1
      have := hfirst entry hmem
      rw [List.filter_cons_of_neg (by simp only [decide_eq_true_eq]; omega)]
      exact ih h

theorem itemsOfSlots_list {v content : Value} {slot : Text} (slots : List Text) (index : Nat)
    (hc : s.slotContent v slot = .ok content) (hl : s.isList content = true) :
    s.itemsOfSlots v (slot :: slots) index =
      ((s.slotEntries content).filter (index ≤ ·.1)).map (fun entry =>
        (.value slot entry.2, ⟨v, slot :: slots, entry.1 + 1⟩)) ++ s.itemsOfSlots v slots 0 := by
  rw [itemsOfSlots, hc]
  simp only [hl, if_true]

theorem itemsOfSlots_single {v content : Value} {slot : Text} (slots : List Text) (index : Nat)
    (hc : s.slotContent v slot = .ok content) (hl : s.isList content = false) :
    s.itemsOfSlots v (slot :: slots) index =
      (if content.isMissing then [] else [(.value slot content, ⟨v, slots, index⟩)]) ++
        s.itemsOfSlots v slots index := by
  rw [itemsOfSlots, hc]
  simp only [hl, Bool.false_eq_true, if_false, slotEntries_of_not_isList hl]
  cases content.isMissing <;> rfl

theorem itemsOfSlots_after {v : Value} {slots : List Text} {index : Nat} {slot : Text} {value : Value} {after : Cursor}
    {rest : List (Item × Cursor)} (h : s.itemsOfSlots v slots index = (.value slot value, after) :: rest) :
    after.node = v ∧ s.itemsFrom after = rest := by
  induction slots generalizing index with
  | nil => cases h
  | cons name names ih =>
    cases hc : s.slotContent v name with
    | error m => rw [itemsOfSlots, hc] at h; simp at h
    | ok content =>
      cases hl : s.isList content with
      | false =>
        rw [itemsOfSlots_single names index hc hl] at h
        split at h
        · exact ih h
        · simp only [List.singleton_append, List.cons.injEq, Prod.mk.injEq] at h
          obtain ⟨⟨_, rfl⟩, rfl⟩ := h
          exact ⟨rfl, rfl⟩
      | true =>
        rw [itemsOfSlots_list names index hc hl] at h
        cases he : (s.slotEntries content).filter (index ≤ ·.1) with
        | nil => rw [he] at h; exact ih h
        | cons entry more =>
          rw [he] at h
          simp only [List.map_cons, List.cons_append, List.cons.injEq, Prod.mk.injEq] at h
          obtain ⟨⟨_, rfl⟩, rfl⟩ := h
          refine ⟨rfl, ?_⟩
          rw [itemsFrom, itemsOfSlots_list names _ hc hl, filter_after (s.slotEntries_ascending content) he]

/-- The cursor that comes with an item leads to what follows it. -/
theorem itemsFrom_after {c after : Cursor} {slot : Text} {value : Value} {rest : List (Item × Cursor)}
    (h : s.itemsFrom c = (.value slot value, after) :: rest) : after.node = c.node ∧ s.itemsFrom after = rest :=
  itemsOfSlots_after h

/-- From the first entry on, a cursor leads to all items, as long as the slots can be read. -/
theorem map_fst_itemsOfSlots {v : Value} {slots : List Text} (h : ∀ slot ∈ slots, ∃ c, s.slotContent v slot = .ok c) :
    (s.itemsOfSlots v slots 0).map Prod.fst = slots.flatMap (s.slotItems v) := by
  induction slots with
  | nil => rfl
  | cons slot slots ih =>
    obtain ⟨content, hc⟩ := h slot List.mem_cons_self
    have hrest := ih fun slot hslot => h slot (List.mem_cons_of_mem _ hslot)
    rw [List.flatMap_cons, ← hrest, slotItems_of_content hc]
    cases hl : s.isList content with
    | false =>
      rw [itemsOfSlots_single slots 0 hc hl, slotEntries_of_not_isList hl]
      cases content.isMissing <;> simp
    | true =>
      rw [itemsOfSlots_list slots 0 hc hl]
      simp [List.map_map, Function.comp_def]

/-- A cursor opened at a node leads to its whole outline. -/
theorem Outlines.openCursor {id : ObjectId} {o : Outline} (h : s.Outlines id o) :
    ∃ c, s.openCursor (.object id) = .ok c ∧ c.node = .object id ∧ s.Unfolds id ((s.itemsFrom c).map Prod.fst) o := by
  obtain ⟨items, hi, hu⟩ := h
  obtain ⟨names, hn, hi⟩ := Attempt.bind_eq_ok hi
  cases hi
  refine ⟨⟨.object id, names, 0⟩, by rw [Store.openCursor, hn]; rfl, rfl, ?_⟩
  rw [itemsFrom, map_fst_itemsOfSlots fun slot hslot => ?_]
  · exact hu
  · cases hc : s.slotContent (.object id) slot with
    | ok content => exact ⟨content, rfl⟩
    | error m =>
      have hmem : Item.unreadable m ∈ s.slotItems (.object id) slot := by simp [slotItems, hc]
      obtain ⟨_, _, heq⟩ := hu.value (List.mem_flatMap.mpr ⟨slot, hslot, hmem⟩)
      cases heq

end Store

/-! ## What is left of a walk -/

namespace Walk

variable (s : Store) (accept : Accept) (predicate : Option (ObjectId → Bool))

/-- The events that are left for a stack of cursors, the innermost first. -/
inductive Left : List Cursor → List Event → Prop
  | nil : Left [] []
  | cons {cursor : Cursor} {owner : ObjectId} {o : Outline} {outer : List Cursor} {es : List Event}
      (node : cursor.node = .object owner) (unfolds : s.Unfolds owner ((s.itemsFrom cursor).map Prod.fst) o)
      (outside : Left outer es) : Left (cursor :: outer) (o.events accept predicate ++ es)

/-- The events that come with a node that is to be entered. -/
def Pending : Option ObjectId → List Event → Prop
  | none, es => es = []
  | some id, es => ∃ below, s.Outlines id below ∧ es = entering predicate id (below.events accept predicate)

/-- The events that are left for a walk over everything below a node. -/
def Remaining (w : Walk) (es : List Event) : Prop :=
  w.accept = accept ∧ w.deep = true ∧ ∃ pending left, Pending s accept predicate w.pending pending ∧
    Left s accept predicate w.stack left ∧ es = pending ++ left

end Walk

/-- The event by which a pull ends, if it is not the end. -/
def Outcome.event? : Outcome → Option Event
  | .yield e => some (.yielded e)
  | .failure f => some (.thrown f)
  | .done => none

/-- The node that a pull hands out. -/
def Outcome.node? : Outcome → Option ObjectId
  | .yield e => e.node?
  | _ => none

namespace Walk

open Search

section

variable (s : Store) (accept : Accept) (predicate : Option (ObjectId → Bool))

/-- A search goes through events: all of them are questions, or it stops at the first other one and the rest is left. -/
def Search.Takes (r : Search) (es : List Event) : Prop :=
  match r.found with
  | none => r.stack = [] ∧ es = questions r.asked
  | some outcome => ∃ event, outcome.event? = some event ∧ ∃ pending left,
      Pending s accept predicate outcome.node? pending ∧ Left s accept predicate r.stack left ∧
      es = questions r.asked ++ event :: (pending ++ left)

end

/-- A predicate that never fails. -/
abbrev total (predicate : Option (ObjectId → Bool)) : Option Predicate := predicate.map fun p id => .ok (p id)

variable {s : Store} {accept : Accept} {predicate : Option (ObjectId → Bool)}

theorem Left.append {inner outer : List Cursor} {es es' : List Event} (h : Left s accept predicate inner es)
    (h' : Left s accept predicate outer es') : Left s accept predicate (inner ++ outer) (es ++ es') := by
  induction h with
  | nil => exact h'
  | cons node unfolds _ ih => rw [List.append_assoc]; exact .cons node unfolds ih

theorem Left.single {cursor : Cursor} {owner : ObjectId} {o : Outline} (hnode : cursor.node = .object owner)
    (h : s.Unfolds owner ((s.itemsFrom cursor).map Prod.fst) o) :
    Left s accept predicate [cursor] (o.events accept predicate) := by
  rw [← List.append_nil (o.events accept predicate)]
  exact .cons hnode h .nil

theorem ask_total (predicate : Option (ObjectId → Bool)) (id : ObjectId) : ∃ answer question,
    ask (total predicate) id = .ok (answer, question) ∧
      ∀ inside, entering predicate id inside = questions question ++ if answer then inside else [] := by
  cases predicate with
  | none => exact ⟨true, [], rfl, fun inside => by simp [entering]⟩
  | some p => exact ⟨p id, [(id, p id)], rfl, fun inside => rfl⟩

theorem Search.takes_none {r : Search} {es : List Event} (hr : r.found = none) (hs : r.stack = [])
    (h : es = questions r.asked) : r.Takes s accept predicate es := by
  rw [Takes, hr]
  exact ⟨hs, h⟩

theorem Search.takes_some {r : Search} {es pending left : List Event} {outcome : Outcome} {event : Event}
    (hr : r.found = some outcome) (he : outcome.event? = some event)
    (hp : Pending s accept predicate outcome.node? pending) (hl : Left s accept predicate r.stack left)
    (h : es = questions r.asked ++ event :: (pending ++ left)) : r.Takes s accept predicate es := by
  rw [Takes, hr]
  exact ⟨event, he, pending, left, hp, hl, h⟩

/-- A search that goes on behind another one, unless that one stopped, takes the events of both. -/
theorem Search.takes_append {inner later : Search} {outer : List Cursor} {es es' : List Event}
    (question : List (ObjectId × Bool)) (hinner : inner.Takes s accept predicate es)
    (hlater : later.Takes s accept predicate es') (hleft : Left s accept predicate outer es') :
    Search.Takes s accept predicate
      (match inner.found with
        | some outcome => ⟨question ++ inner.asked, some outcome, inner.stack ++ outer⟩
        | none => { later with asked := question ++ inner.asked ++ later.asked })
      (questions question ++ es ++ es') := by
  cases hf : inner.found with
  | some outcome =>
    rw [Search.Takes, hf] at hinner
    obtain ⟨event, he, pending, left, hp, hl, rfl⟩ := hinner
    refine takes_some rfl he hp (hl.append hleft) ?_
    simp only [questions_append, List.append_assoc, List.cons_append]
  | none =>
    rw [Search.Takes, hf] at hinner
    obtain ⟨_, rfl⟩ := hinner
    cases hg : later.found with
    | none =>
      rw [Search.Takes, hg] at hlater
      obtain ⟨hs, rfl⟩ := hlater
      refine takes_none rfl hs ?_
      simp only [questions_append, List.append_assoc]
    | some outcome =>
      rw [Search.Takes, hg] at hlater
      obtain ⟨event, he, pending, left, hp, hl, rfl⟩ := hlater
      refine takes_some rfl he hp hl ?_
      simp only [questions_append, List.append_assoc]

/-- A search from a cursor on takes the events of the items there, if the searches below nodes do. The induction is on
the items; the cursor after each item leads to the next ones. -/
theorem searchItems_takes {enter : ObjectId → Search} {depth : Nat}
    (henter : ∀ id below, s.Outlines id below → below.depth < depth →
      (enter id).Takes s accept predicate (below.events accept predicate))
    {cursor : Cursor} {owner : ObjectId} {items : List Item} {o : Outline} (hnode : cursor.node = .object owner)
    (hitems : (s.itemsFrom cursor).map Prod.fst = items) (h : s.Unfolds owner items o) (hdepth : o.depth ≤ depth) :
    (searchItems s accept (total predicate) enter (.object owner) (s.itemsFrom cursor)).Takes s accept predicate
      (o.events accept predicate) := by
  induction h generalizing cursor with
  | empty =>
    rw [List.map_eq_nil_iff] at hitems
    rw [hitems]
    exact Search.takes_none rfl rfl rfl
  | @failure owner slot value f items rest read tail ih =>
    obtain ⟨⟨item, after⟩, more, hcons, rfl, hmore⟩ := List.map_eq_cons_iff.mp hitems
    obtain ⟨hn, ha⟩ := s.itemsFrom_after hcons
    rw [hcons, searchItems_cons, read]
    exact Search.takes_some rfl rfl rfl (.single (hn.trans hnode) (by rw [ha, hmore]; exact tail)) rfl
  | @token owner id slot value t items rest read tail ih =>
    obtain ⟨⟨item, after⟩, more, hcons, rfl, hmore⟩ := List.map_eq_cons_iff.mp hitems
    obtain ⟨hn, ha⟩ := s.itemsFrom_after hcons
    rw [hcons, searchItems_cons, read]
    simp only [Outline.events, handing]
    split
    · exact Search.takes_some rfl rfl rfl (.single (hn.trans hnode) (by rw [ha, hmore]; exact tail)) rfl
    · have := ih (hn.trans hnode) (by rw [ha, hmore]) hdepth
      rwa [ha] at this
  | @node owner id slot value t items inner below rest read opened inside tail _ ih =>
    obtain ⟨⟨item, after⟩, more, hcons, rfl, hmore⟩ := List.map_eq_cons_iff.mp hitems
    obtain ⟨hn, ha⟩ := s.itemsFrom_after hcons
    have hleft : Left s accept predicate [after] (rest.events accept predicate) :=
      .single (hn.trans hnode) (by rw [ha, hmore]; exact tail)
    simp only [Outline.depth] at hdepth
    rw [hcons, searchItems_cons, read]
    simp only [Outline.events, handing]
    split
    · refine Search.takes_some rfl rfl ⟨below, ⟨_, opened, inside⟩, rfl⟩ hleft ?_
      simp
    · obtain ⟨answer, question, hask, hentering⟩ := ask_total predicate id
      have hinner : Search.Takes s accept predicate (if answer then enter id else {})
          (if answer then below.events accept predicate else []) := by
        cases answer with
        | true => exact henter id below ⟨_, opened, inside⟩ (by omega)
        | false => exact takes_none rfl rfl rfl
      have hlater := ih (hn.trans hnode) (by rw [ha, hmore]) (by omega)
      rw [ha] at hlater
      rw [hask, hentering]
      exact takes_append question hinner hlater hleft

theorem searchBelow_takes {depth : Nat} {id : ObjectId} {o : Outline} (h : s.Outlines id o) (hdepth : o.depth < depth) :
    (searchBelow s accept (total predicate) depth id).Takes s accept predicate (o.events accept predicate) := by
  induction depth generalizing id o with
  | zero => cases hdepth
  | succ depth ih =>
    obtain ⟨cursor, hc, hnode, hu⟩ := h.openCursor
    rw [searchBelow_succ, hc]
    simp only [hnode]
    exact searchItems_takes (fun id below hb hd => ih hb hd) hnode rfl hu (Nat.le_of_lt_succ hdepth)

theorem searchStack_takes {stack : List Cursor} {es : List Event} (h : Left s accept predicate stack es) :
    (searchStack s accept (total predicate) (searchBelow s accept (total predicate) (s.size + 1)) stack).Takes
      s accept predicate es := by
  induction h with
  | nil => exact takes_none rfl rfl rfl
  | @cons cursor owner o outer es hnode hu houter ih =>
    have hinner : (searchItems s accept (total predicate) (searchBelow s accept (total predicate) (s.size + 1))
        (.object owner) (s.itemsFrom cursor)).Takes s accept predicate (o.events accept predicate) :=
      searchItems_takes (fun id below hb _ => searchBelow_takes hb (Nat.lt_succ_of_le hb.depth_le)) hnode rfl hu
        hu.depth_le
    rw [searchStack_cons]
    simp only [hnode]
    exact takes_append [] hinner ih houter

/-! ## Pulls -/

theorem enterPending_left {w : Walk} {es : List Event} (h : Remaining s accept predicate w es) :
    ∃ question stack left, w.enterPending s (total predicate) = (question, .ok stack) ∧
      Left s accept predicate stack left ∧ es = questions question ++ left := by
  obtain ⟨_, _, pending, left, hp, hl, rfl⟩ := h
  rw [enterPending_eq]
  cases hw : w.pending with
  | none =>
    rw [hw] at hp
    cases hp
    exact ⟨[], w.stack, left, rfl, hl, rfl⟩
  | some id =>
    rw [hw] at hp
    obtain ⟨below, hb, rfl⟩ := hp
    obtain ⟨answer, question, hask, hentering⟩ := ask_total predicate id
    obtain ⟨cursor, hc, hnode, hu⟩ := hb.openCursor
    simp only [hask, hc]
    cases answer with
    | true =>
      refine ⟨question, cursor :: w.stack, below.events accept predicate ++ left, rfl, .cons hnode hu hl, ?_⟩
      simp [hentering]
    | false =>
      refine ⟨question, w.stack, left, rfl, hl, ?_⟩
      simp [hentering]

/-- One pull takes the events that are left up to the first that ends a pull. -/
theorem next_remaining {w : Walk} {es : List Event} (h : Remaining s accept predicate w es) :
    ∃ es', Remaining s accept predicate (w.next s (total predicate)).walk es' ∧
      ((w.next s (total predicate)).outcome = .done ∧ es' = [] ∧
          es = questions (w.next s (total predicate)).asked ∨
        ∃ event, (w.next s (total predicate)).outcome.event? = some event ∧
          es = questions (w.next s (total predicate)).asked ++ event :: es') := by
  obtain ⟨question, stack, left, henter, hleft, rfl⟩ := enterPending_left h
  obtain ⟨haccept, hdeep, _⟩ := h
  have hsearch := searchStack_takes hleft
  rw [next_eq, henter]
  simp only [hdeep, if_true, haccept, toEnter]
  generalize searchStack s accept (total predicate) (searchBelow s accept (total predicate) (s.size + 1)) stack = r
    at hsearch
  rw [Search.Takes] at hsearch
  cases hf : r.found with
  | none =>
    rw [hf] at hsearch
    obtain ⟨hs, rfl⟩ := hsearch
    refine ⟨[], ⟨rfl, rfl, [], [], rfl, hs ▸ .nil, rfl⟩, .inl ⟨rfl, rfl, ?_⟩⟩
    rw [questions_append]
  | some outcome =>
    rw [hf] at hsearch
    obtain ⟨event, he, pending, left, hp, hl, rfl⟩ := hsearch
    refine ⟨pending ++ left, ⟨rfl, rfl, pending, left, ?_, hl, rfl⟩, .inr ⟨event, he, ?_⟩⟩
    · cases outcome with
      | _ => exact hp
    · rw [questions_append, List.append_assoc]

/-- The questions and the outcomes of so many pulls. -/
def pulls (s : Store) (predicate : Option Predicate) : Nat → Walk → List (List (ObjectId × Bool) × Outcome)
  | 0, _ => []
  | count + 1, w =>
    let pull := w.next s predicate
    (pull.asked, pull.outcome) :: pulls s predicate count pull.walk

/-- The pulls of a walk are the events that are left, cut at each element and each failure, and then nothing but ends. -/
theorem pulls_eq_cut {w : Walk} {es : List Event} (h : Remaining s accept predicate w es) {count more : Nat}
    (hmore : count ≤ more) :
    w.pulls s (total predicate) count = (cut [] es ++ List.replicate more ([], Outcome.done)).take count := by
  induction count generalizing w es with
  | zero => rfl
  | succ count ih =>
    obtain ⟨es', hes', ⟨hdone, rfl, rfl⟩ | ⟨event, hevent, rfl⟩⟩ := next_remaining h
    · rw [pulls, ih hes' (by omega), hdone, ← List.append_nil (questions _), cut_questions]
      have hend : ∀ n, ([], Outcome.done) :: List.replicate n ([], Outcome.done) =
          List.replicate (n + 1) (([] : List (ObjectId × Bool)), Outcome.done) := fun n => rfl
      simp only [cut, List.nil_append, List.singleton_append, List.take_succ_cons, hend, List.take_replicate]
      rw [Nat.min_eq_left (by omega), Nat.min_eq_left (by omega)]
    · rw [pulls, ih hes' (by omega), cut_questions]
      cases hout : (w.next s (total predicate)).outcome with
      | done => rw [hout] at hevent; cases hevent
      | yield e => rw [hout] at hevent; cases hevent; rfl
      | failure f => rw [hout] at hevent; cases hevent; rfl

theorem descendants_remaining {id : ObjectId} {o : Outline} (h : s.Outlines id o) :
    ∃ w, descendants s accept (.object id) = .ok w ∧
      Remaining s accept predicate w (o.events accept predicate) := by
  obtain ⟨cursor, hc, hnode, hu⟩ := h.openCursor
  refine ⟨⟨accept, true, [cursor], none⟩, by rw [descendants, hc]; rfl, rfl, rfl, [], _, rfl, .single hnode hu, rfl⟩

/-! ## Elements in a row -/

/-- A walk over everything below a node hands out elements in order, never fails and then ends, however often it is
pulled. -/
def Lists (s : Store) (accept : Accept) (v : Value) (es : List Element) : Prop :=
  ∃ w, descendants s accept v = .ok w ∧ ∀ count, w.pulls s none count =
    (es.map (fun e => ([], Outcome.yield e)) ++ List.replicate count ([], Outcome.done)).take count

theorem take_append_replicate {α : Type} (l : List α) (a : α) {count n m : Nat} (hn : count ≤ n) (hm : count ≤ m) :
    (l ++ List.replicate n a).take count = (l ++ List.replicate m a).take count := by
  rw [List.take_append, List.take_append, List.take_replicate, List.take_replicate, Nat.min_eq_left (by omega),
    Nat.min_eq_left (by omega)]

theorem cut_yielded (es : List Element) :
    cut [] (es.map .yielded) = es.map (fun e => ([], Outcome.yield e)) ++ [([], Outcome.done)] := by
  induction es with
  | nil => rfl
  | cons e es ih => rw [List.map_cons, cut, ih]; rfl

/-- Pulls that never ask or fail are those of elements in a row. -/
theorem eq_yielded_of_cut {events : List Event} {asked : List (ObjectId × Bool)} {es : List Element}
    (h : ∀ count, (cut asked events ++ List.replicate count ([], Outcome.done)).take count =
      (es.map (fun e => ([], Outcome.yield e)) ++ List.replicate count ([], Outcome.done)).take count) :
    asked = [] ∧ events = es.map .yielded := by
  induction events generalizing asked es with
  | nil =>
    have hhead := h 1
    cases es with
    | nil =>
      simp only [cut, List.singleton_append, List.map_nil, List.nil_append, List.take_succ_cons, List.take_zero,
        List.replicate_one, List.cons.injEq, Prod.mk.injEq, and_true] at hhead
      exact ⟨hhead, rfl⟩
    | cons e es => simp [cut] at hhead
  | cons event events ih =>
    cases event with
    | asked id answer =>
      have hnil : asked ++ [(id, answer)] = [] := (ih h).1
      simp at hnil
    | thrown f =>
      have hhead := h 1
      cases es <;> simp [cut] at hhead
    | yielded e =>
      have hhead := h 1
      cases es with
      | nil => simp [cut] at hhead
      | cons e' es =>
        simp only [cut, List.map_cons, List.cons_append, List.take_succ_cons, List.take_zero, List.cons.injEq,
          Prod.mk.injEq, Outcome.yield.injEq, and_true] at hhead
        obtain ⟨rfl, rfl⟩ := hhead
        have hrest : ([] : List (ObjectId × Bool)) = [] ∧ events = es.map .yielded := ih fun count => by
          have hcount := h (count + 1)
          simp only [cut, List.map_cons, List.cons_append, List.take_succ_cons, List.cons.injEq, true_and] at hcount
          rw [take_append_replicate _ _ (Nat.le_refl count) (Nat.le_succ count), hcount]
          exact take_append_replicate _ _ (Nat.le_succ count) (Nat.le_refl count)
        exact ⟨rfl, by rw [hrest.2]; rfl⟩

/-- A walk lists what the events of the outline hand out, if nothing else happens there. -/
theorem lists_iff {id : ObjectId} {o : Outline} (h : s.Outlines id o) {es : List Element} :
    Lists s accept (.object id) es ↔ o.events accept none = es.map .yielded := by
  obtain ⟨w, hw, hr⟩ : ∃ w, descendants s accept (.object id) = .ok w ∧
      Remaining s accept none w (o.events accept none) := descendants_remaining h
  have hpulls : ∀ count, w.pulls s none count =
      (cut [] (o.events accept none) ++ List.replicate count ([], Outcome.done)).take count :=
    fun count => pulls_eq_cut hr (Nat.le_refl count)
  constructor
  · rintro ⟨w', hw', hlist⟩
    rw [hw] at hw'
    cases hw'
    exact (eq_yielded_of_cut fun count => (hpulls count).symm.trans (hlist count)).2
  · intro hevents
    refine ⟨w, hw, fun count => ?_⟩
    rw [hpulls, hevents, cut_yielded, List.append_assoc]
    exact take_append_replicate _ _ (Nat.le_succ count) (Nat.le_refl count)

/-- A walk over everything below a node goes through the outline of the node by recursion: pulled any number of times,
also after failures and after its end, it gives the events of that order. Slots may hold anything. -/
theorem descendants_pulls_eq_cut_events (s : Store) {id : ObjectId} (h : s.Walkable id) (accept : Accept)
    (predicate : Option (ObjectId → Bool)) :
    ∃ o w, s.Outlines id o ∧ descendants s accept (.object id) = .ok w ∧
      ∀ count, w.pulls s (total predicate) count =
        (cut [] (o.events accept predicate) ++ List.replicate count ([], Outcome.done)).take count := by
  obtain ⟨o, ho⟩ := h.exists_outline
  obtain ⟨w, hw, hr⟩ := descendants_remaining ho
  exact ⟨o, w, ho, hw, fun count => pulls_eq_cut hr (Nat.le_refl count)⟩

/-- A node in whose slots a list stands where a single child is declared, with an absent and a foreign entry around a
node, and a single child where a list is declared. -/
def corrupted : Store :=
  let leaf : Variant :=
    { self := 0, kind := 1, name := "Leaf", layout := [("word", Layout.one)], isSourceFile := false }
  let branch : Variant :=
    { self := 0, kind := 2, name := "Branch", layout := [("only", Layout.one), ("rest", Layout.many)]
      isSourceFile := false }
  Store.empty.addAll
    [.token ⟨.ofNat 1, 0, 0, 4⟩, .record [("word", .object 6)] true, .node { variant := leaf, slots := 7 },
      .ofItems [.null, .object 8, .number 1], .record [("only", .object 9), ("rest", .object 6)] true,
      .node { variant := branch, slots := 10 }]

theorem corrupted_items : corrupted.items (.object 11) =
    .ok [.value "only" (.object 8), .value "only" (.number 1), .value "rest" (.object 6)] := rfl

theorem corrupted_items_leaf : corrupted.items (.object 8) = .ok [.value "word" (.object 6)] := rfl

theorem not_childNode_corrupted_leaf (c : ObjectId) : ¬ corrupted.ChildNode 8 c := by
  rintro ⟨items, slot, value, t, hitems, hmem, he⟩
  rw [corrupted_items_leaf] at hitems
  cases hitems
  cases List.mem_singleton.mp hmem
  cases (Store.isNode_of_elementOf? he).1
  exact absurd (Store.isNode_of_elementOf? he).2.1 (by decide)

theorem childNode_corrupted {c : ObjectId} (h : corrupted.ChildNode 11 c) : c = 8 := by
  obtain ⟨items, slot, value, t, hitems, hmem, he⟩ := h
  rw [corrupted_items] at hitems
  cases hitems
  obtain ⟨rfl, hnode, _⟩ := Store.isNode_of_elementOf? he
  simp only [List.mem_cons, List.not_mem_nil, or_false, Item.value.injEq, Value.object.injEq, reduceCtorEq, and_false,
    false_or] at hmem
  obtain ⟨_, rfl⟩ | ⟨_, rfl⟩ := hmem
  · rfl
  · exact absurd hnode (by decide)

theorem reaches_corrupted {m : ObjectId} (h : corrupted.Reaches 11 m) : m = 11 ∨ m = 8 := by
  induction h with
  | refl => exact .inl rfl
  | tail _ hc ih =>
    rcases ih with rfl | rfl
    · exact .inr (childNode_corrupted hc)
    · exact absurd hc (not_childNode_corrupted_leaf _)

theorem walkable_corrupted : corrupted.Walkable 11 where
  readable m hm := by
    rcases reaches_corrupted hm with rfl | rfl <;> exact ⟨⟨_, rfl⟩, by decide⟩
  acyclic m hm hcycle := by
    have hleaf : ¬ Relation.TransGen corrupted.ChildNode 8 m := fun h => by
      obtain ⟨c, hc, _⟩ := Relation.TransGen.head'_iff.mp h
      exact not_childNode_corrupted_leaf c hc
    rcases reaches_corrupted hm with rfl | rfl
    · obtain ⟨c, hc, hrest⟩ := Relation.TransGen.head'_iff.mp hcycle
      rw [childNode_corrupted hc] at hrest
      rcases Relation.ReflTransGen.cases_head hrest with heq | ⟨d, hd, _⟩
      · cases heq
      · exact not_childNode_corrupted_leaf d hd
    · exact hleaf hcycle

theorem corrupted_pulls_eq_cut_events : corrupted.Walkable 11 ∧
    ∃ o w, corrupted.Outlines 11 o ∧ descendants corrupted .nodes (.object 11) = .ok w ∧
      ∀ count, w.pulls corrupted (total (some (· != 8))) count =
        (cut [] (o.events .nodes (some (· != 8))) ++ List.replicate count ([], Outcome.done)).take count :=
  ⟨walkable_corrupted, descendants_pulls_eq_cut_events corrupted walkable_corrupted .nodes (some (· != 8))⟩

end Walk

end LosslessSyntax
