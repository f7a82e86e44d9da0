import LosslessSyntax.Proofs.Measures

/-!
# Walks that end

A walk over everything below a node fails where something cannot be read, and need not end where a node stands below
itself. If it does end, and has done nothing but hand out elements until then, then the node has an outline, whatever
else is in the store, and what was handed out are the elements of that outline (`Walk.lists_iff_exists`).

The argument goes backwards through the pulls. Where a search has found something, what it leaves to later pulls has an
outline by what is known of these; what it has gone through has one because it got through: the items of a cursor
(`leads_of_searchItems`, by induction on them), a node (`outlines_of_searchBelow`, by induction on the depth), the stack
(`leads_of_searchStack`), and the walk before a pull (`opened_of_next`).
-/

namespace LosslessSyntax

namespace Store

variable {s : Store} {id : ObjectId}

/-! ## Cursors at the first entry -/

/-- Where a slot cannot be read, a cursor meets that or another such slot. -/
theorem exists_unreadable {v : Value} {slots : List Text} {slot : Text} (hslot : slot ∈ slots) {m : Misuse}
    (h : s.slotContent v slot = .error m) (index : Nat) :
    ∃ misuse, .unreadable misuse ∈ (s.itemsOfSlots v slots index).map Prod.fst := by
  induction slots generalizing index with
  | nil => exact absurd hslot List.not_mem_nil
  | cons name names ih =>
    cases hname : s.slotContent v name with
    | error m' =>
      rw [itemsOfSlots, hname]
      exact ⟨m', List.mem_cons_self⟩
    | ok content =>
      have hmem : slot ∈ names := by
        rcases List.mem_cons.mp hslot with rfl | hmem
        · rw [hname] at h
          cases h
        · exact hmem
      cases hlist : s.isList content with
      | false =>
        obtain ⟨misuse, hmisuse⟩ := ih hmem index
        rw [itemsOfSlots_single names index hname hlist, List.map_append]
        exact ⟨misuse, List.mem_append_right _ hmisuse⟩
      | true =>
        obtain ⟨misuse, hmisuse⟩ := ih hmem 0
        rw [itemsOfSlots_list names index hname hlist, List.map_append]
        exact ⟨misuse, List.mem_append_right _ hmisuse⟩

/-- What is left for a cursor has an outline. -/
def Leads (s : Store) (c : Cursor) : Prop :=
  ∀ owner, c.node = .object owner → ∃ o, s.Unfolds owner ((s.itemsFrom c).map Prod.fst) o

/-- If everything that a cursor opened at a node leads to has an outline, the node has one. -/
theorem Leads.outlines {c : Cursor} (h : s.Leads c) (hc : s.openCursor (.object id) = .ok c) :
    ∃ o, s.Outlines id o := by
  obtain ⟨names, hnames, hc⟩ := Attempt.bind_eq_ok hc
  cases hc
  obtain ⟨o, ho⟩ := h id rfl
  have hreadable : ∀ slot ∈ names, ∃ content, s.slotContent (.object id) slot = .ok content := by
    intro slot hslot
    cases hcontent : s.slotContent (.object id) slot with
    | ok content => exact ⟨content, rfl⟩
    | error m =>
      obtain ⟨misuse, hmem⟩ := exists_unreadable hslot hcontent 0
      obtain ⟨_, _, heq⟩ := ho.value hmem
      cases heq
  rw [itemsFrom, map_fst_itemsOfSlots hreadable] at ho
  exact ⟨o, _, by rw [Store.items, hnames]; rfl, ho⟩

end Store

namespace Walk

variable {s : Store} {accept : Accept} {id : ObjectId}

/-- A search that has not failed, and everything that it leaves to later pulls has an outline. -/
def Search.Settled (s : Store) (r : Search) : Prop :=
  ∀ outcome ∈ r.found, ∃ e, outcome = .yield e ∧ (∀ id ∈ e.node?, ∃ o, s.Outlines id o) ∧ ∀ c ∈ r.stack, s.Leads c

theorem Search.settled_of_none {r : Search} (h : r.found = none) : r.Settled s := by
  intro outcome hfound
  rw [h] at hfound
  cases hfound

theorem Search.Settled.ne_failure {r : Search} (h : r.Settled s) (f : Failure) : r.found ≠ some (.failure f) := by
  intro hfound
  obtain ⟨e, he, _⟩ := h _ hfound
  cases he

/-- Where a search stopped inside of another one, that one was settled, and so is what is left outside of it. -/
theorem Search.Settled.inner {inner r : Search} {outer : List Cursor} {outcome : Outcome} (h : r.Settled s)
    (hinner : inner.found = some outcome) (hfound : r.found = some outcome) (hstack : r.stack = inner.stack ++ outer) :
    inner.Settled s ∧ ∀ c ∈ outer, s.Leads c := by
  obtain ⟨e, rfl, hpending, hleads⟩ := h outcome hfound
  rw [hstack] at hleads
  refine ⟨fun outcome houtcome => ?_, fun c hc => hleads c (List.mem_append_right _ hc)⟩
  rw [hinner] at houtcome
  cases houtcome
  exact ⟨e, rfl, hpending, fun c hc => hleads c (List.mem_append_left _ hc)⟩

/-! ## Searches -/

/-- The items from a cursor on have an outline if a search through them is settled. The induction is on the items; the
cursor after each item leads to the next ones. -/
theorem leads_of_searchItems {enter : ObjectId → Search}
    (henter : ∀ id, (enter id).Settled s → ∃ o, s.Outlines id o) {cursor : Cursor}
    (h : (searchItems s accept none enter cursor.node (s.itemsFrom cursor)).Settled s) : s.Leads cursor := by
  intro owner hnode
  rw [hnode] at h
  generalize hitems : s.itemsFrom cursor = items at h
  induction items generalizing cursor with
  | nil => exact ⟨.empty, .empty⟩
  | cons first rest ih =>
    obtain ⟨item, after⟩ := first
    cases item with
    | unreadable m => exact absurd rfl (h.ne_failure (.misuse m))
    | value slot value =>
      obtain ⟨hafterNode, hafterItems⟩ := s.itemsFrom_after hitems
      have hafter : s.Leads after → ∃ o, s.Unfolds owner (rest.map Prod.fst) o := fun hleads => by
        rw [← hafterItems]
        exact hleads owner (hafterNode.trans hnode)
      rw [searchItems_cons] at h
      cases hread : s.read (.object owner) (.value slot value) with
      | error f =>
        rw [hread] at h
        exact absurd rfl (h.ne_failure f)
      | ok e =>
        rw [hread] at h
        simp only at h
        split at h
        · obtain ⟨e', he, hpending, hleads⟩ := h _ rfl
          cases he
          obtain ⟨o, hrest⟩ := hafter (hleads after List.mem_cons_self)
          cases e with
          | token id t => exact ⟨_, .token hread hrest⟩
          | node id t =>
            obtain ⟨below, inner, hopen, hinside⟩ := hpending id rfl
            exact ⟨_, .node hread hopen hinside hrest⟩
        · cases e with
          | token id t =>
            obtain ⟨o, hrest⟩ := ih (hafterNode.trans hnode) hafterItems h
            exact ⟨_, .token hread hrest⟩
          | node id t =>
            have hboth : (enter id).Settled s ∧ ∃ o, s.Unfolds owner (rest.map Prod.fst) o := by
              simp only [ask, Attempt.pure_eq_ok, if_true, List.nil_append] at h
              cases hfound : (enter id).found with
              | none =>
                rw [hfound] at h
                exact ⟨Search.settled_of_none hfound, ih (hafterNode.trans hnode) hafterItems h⟩
              | some outcome =>
                rw [hfound] at h
                obtain ⟨hinner, hleads⟩ := h.inner hfound rfl rfl
                exact ⟨hinner, hafter (hleads after List.mem_cons_self)⟩
            obtain ⟨below, inner, hopen, hinside⟩ := henter id hboth.1
            obtain ⟨o, hrest⟩ := hboth.2
            exact ⟨_, .node hread hopen hinside hrest⟩

theorem outlines_of_searchBelow {depth : Nat} (h : (searchBelow s accept none depth id).Settled s) :
    ∃ o, s.Outlines id o := by
  induction depth generalizing id with
  | zero => exact absurd rfl (h.ne_failure (.misuse .endless))
  | succ depth ih =>
    rw [searchBelow_succ] at h
    cases hc : s.openCursor (.object id) with
    | error f =>
      rw [hc] at h
      exact absurd rfl (h.ne_failure f)
    | ok cursor =>
      rw [hc] at h
      exact (leads_of_searchItems (fun _ => ih) h).outlines hc

theorem leads_of_searchStack {depth : Nat} {stack : List Cursor}
    (h : (searchStack s accept none (searchBelow s accept none depth) stack).Settled s) : ∀ c ∈ stack, s.Leads c := by
  induction stack with
  | nil => exact List.forall_mem_nil _
  | cons cursor outer ih =>
    rw [searchStack_cons] at h
    simp only at h
    rw [List.forall_mem_cons]
    cases hfound : (searchItems s accept none (searchBelow s accept none depth) cursor.node (s.itemsFrom cursor)).found with
    | none =>
      rw [hfound] at h
      exact ⟨leads_of_searchItems (fun _ => outlines_of_searchBelow) (Search.settled_of_none hfound), ih h⟩
    | some outcome =>
      rw [hfound] at h
      obtain ⟨hinner, houter⟩ := h.inner hfound rfl rfl
      exact ⟨leads_of_searchItems (fun _ => outlines_of_searchBelow) hinner, houter⟩

/-! ### A search does not find an end -/

theorem Search.ne_done_of_eq {r : Search} {outcome : Outcome} (h : r.found = some outcome) (hne : outcome ≠ .done) :
    r.found ≠ some .done := fun hdone => hne (Option.some.inj (h.symm.trans hdone))

section

variable (s accept)

theorem searchItems_ne_done {enter : ObjectId → Search} (henter : ∀ id, (enter id).found ≠ some .done) (owner : Value)
    (items : List (Item × Cursor)) : (searchItems s accept none enter owner items).found ≠ some .done := by
  induction items with
  | nil => exact fun h => by cases h
  | cons first rest ih =>
    obtain ⟨item, after⟩ := first
    rw [searchItems_cons]
    cases s.read owner item with
    | error f => exact Search.ne_done_of_eq rfl fun h => by cases h
    | ok e =>
      simp only
      split
      · exact Search.ne_done_of_eq rfl fun h => by cases h
      · cases e with
        | token id t => exact ih
        | node id t =>
          simp only [ask, Attempt.pure_eq_ok, if_true]
          cases hfound : (enter id).found with
          | none => exact ih
          | some outcome => exact fun h => henter id (hfound.trans h)

theorem searchBelow_ne_done (depth : Nat) (id : ObjectId) : (searchBelow s accept none depth id).found ≠ some .done := by
  induction depth generalizing id with
  | zero => exact Search.ne_done_of_eq rfl fun h => by cases h
  | succ depth ih =>
    rw [searchBelow_succ]
    cases s.openCursor (.object id) with
    | error f => exact Search.ne_done_of_eq rfl fun h => by cases h
    | ok cursor => exact searchItems_ne_done s accept ih cursor.node _

theorem searchStack_ne_done (depth : Nat) (stack : List Cursor) :
    (searchStack s accept none (searchBelow s accept none depth) stack).found ≠ some .done := by
  induction stack with
  | nil => exact fun h => by cases h
  | cons cursor outer ih =>
    have hinner := searchItems_ne_done s accept (searchBelow_ne_done s accept depth) cursor.node (s.itemsFrom cursor)
    rw [searchStack_cons]
    simp only
    cases hfound : (searchItems s accept none (searchBelow s accept none depth) cursor.node (s.itemsFrom cursor)).found with
    | none => exact ih
    | some outcome => exact fun h => hinner (hfound.trans h)

end

/-! ## Pulls -/

/-- What is left for a walk has an outline. -/
def Opened (s : Store) (w : Walk) : Prop := (∀ id ∈ w.pending, ∃ o, s.Outlines id o) ∧ ∀ c ∈ w.stack, s.Leads c

/-- What was left before a pull has an outline if the pull came to the end, or if it handed out an element and what is
left after it has one. -/
theorem opened_of_next {w : Walk} (hdeep : w.deep = true) (h : (w.next s none).outcome = .done ∨
    (∃ e, (w.next s none).outcome = .yield e) ∧ Opened s (w.next s none).walk) : Opened s w := by
  have hsettled : ∀ stack, w.enterPending s none = ([], .ok stack) → ∀ c ∈ stack, s.Leads c := by
    intro stack henter
    have hsearch : (searchStack s w.accept none (searchBelow s w.accept none (s.size + 1)) stack).Settled s := by
      intro outcome hfound
      rw [next_eq, henter] at h
      simp only [hdeep, if_true, Option.mem_def.mp hfound, Option.getD_some] at h
      rcases h with rfl | ⟨⟨e, rfl⟩, hpending, hleads⟩
      · exact absurd hfound (searchStack_ne_done s w.accept (s.size + 1) stack)
      · refine ⟨e, rfl, ?_, hleads⟩
        simpa only [toEnter, hdeep, if_true] using hpending
    exact leads_of_searchStack hsearch
  cases hpending : w.pending with
  | none =>
    refine ⟨fun id hid => ?_, hsettled w.stack (by rw [enterPending_eq, hpending])⟩
    rw [hpending] at hid
    cases hid
  | some id =>
    have henter : w.enterPending s none = ([], (s.openCursor (.object id)).map (· :: w.stack)) := by
      rw [enterPending_eq, hpending]
      rfl
    cases hc : s.openCursor (.object id) with
    | error f =>
      rw [next_eq, henter, hc] at h
      rcases h with h | ⟨⟨e, h⟩, _⟩ <;> cases h
    | ok cursor =>
      rw [hc] at henter
      obtain ⟨hcursor, hstack⟩ := List.forall_mem_cons.mp (hsettled _ henter)
      refine ⟨fun id' hid' => ?_, hstack⟩
      rw [hpending] at hid'
      cases hid'
      exact hcursor.outlines hc

/-- What is left for a walk has an outline if the walk hands out elements and then ends. The induction is on the
elements. -/
theorem opened_of_pulls {w : Walk} (hdeep : w.deep = true) {es : List Element} (h : ∀ count, w.pulls s none count =
    (es.map (fun e => ([], Outcome.yield e)) ++ List.replicate count ([], Outcome.done)).take count) : Opened s w := by
  induction es generalizing w with
  | nil =>
    have hfirst : [((w.next s none).asked, (w.next s none).outcome)] = [([], Outcome.done)] := h 1
    exact opened_of_next hdeep (.inl (Prod.mk.inj (List.cons.inj hfirst).1).2)
  | cons e es ih =>
    have hfirst : [((w.next s none).asked, (w.next s none).outcome)] = [([], Outcome.yield e)] := h 1
    refine opened_of_next hdeep (.inr ⟨⟨e, (Prod.mk.inj (List.cons.inj hfirst).1).2⟩, ih ?_ fun count => ?_⟩)
    · rw [next_eq]
      split <;> exact hdeep
    · have hcount := (List.cons.inj (h (count + 1))).2
      exact hcount.trans (take_append_replicate _ _ (Nat.le_succ count) (Nat.le_refl count))

/-! ## Elements in a row -/

theorem Lists.exists_outline {es : List Element} (h : Lists s accept (.object id) es) : ∃ o, s.Outlines id o := by
  obtain ⟨w, hw, hpulls⟩ := h
  obtain ⟨cursor, hc, hw⟩ := Attempt.bind_eq_ok hw
  cases hw
  exact ((opened_of_pulls rfl hpulls).2 cursor List.mem_cons_self).outlines hc

/-- A walk lists elements if and only if there is an outline in which everything can be read and they are the elements
there that the walk takes. -/
theorem lists_iff_exists {es : List Element} : Lists s accept (.object id) es ↔
    ∃ o, s.Outlines id o ∧ o.Legible ∧ o.elements.filter accept.takes = es := by
  constructor
  · intro h
    obtain ⟨o, ho⟩ := h.exists_outline
    have hevents := (lists_iff ho).mp h
    have hlegible := Outline.legible_of_events hevents
    rw [Outline.events_of_legible accept hlegible] at hevents
    have hinj : Function.Injective Event.yielded := fun a b heq => by
      cases heq
      rfl
    exact ⟨o, ho, hlegible, List.map_injective_iff.mpr hinj hevents⟩
  · rintro ⟨o, ho, hlegible, rfl⟩
    exact (lists_iff ho).mpr (Outline.events_of_legible accept hlegible)

/-- What is read off tokens only can be read off what a walk over the tokens takes. -/
theorem filterMap_takes {β : Type} {f : Element → Option β} (hf : ∀ e b, f e = some b → e.token?.isSome = true)
    (es : List Element) : (es.filter Accept.tokens.takes).filterMap f = es.filterMap f := by
  rw [List.filterMap_filter]
  refine List.filterMap_congr fun e _ => ?_
  cases hread : f e with
  | none => split <;> rfl
  | some b => exact if_pos (hf e b hread)

end Walk

end LosslessSyntax
