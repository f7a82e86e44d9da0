import LosslessSyntax.Proofs.Enclosing
import LosslessSyntax.Proofs.Reporting

/-!
# Listing slots

Where reading cannot go on before some slots are listed, a session lists them and reads again. In a session that is in
order (`Session.InOrder`), and in which whatever has a layout has a name that can be shown (`Store.Named`), listing
always succeeds and leaves the primed store as it is. So what an operation comes to in the end is what it comes to in
the primed store, in a session that differs from the one before by listings alone (`Session.Later`).

* `Session.listSlots_run`: slots that can be listed are listed.
* `Session.exists_listings`: after so many listings nothing is left to be listed.
* `Session.observe_run`, `Session.build_run`, `Session.nodesWithin_run`, `Session.pull_run`, `Session.slotNames_run`:
  what reading, building, recording, pulling and asking for slot names come to.
-/

namespace LosslessSyntax

/-! ## Writing -/

/-- Something is missing, or it can be shown on a line. -/
def Data.Showable (s : Store) (d : Data) : Prop := d.isMissing = true ∨ ∃ text, LogLine.valueText s d = .ok text

theorem LogLine.tagsText_ok {s : Store} {tags : Members Data}
    (h : ∀ entry ∈ tags, ∃ text, valueText s entry.2 = .ok text) :
    ∃ text, tagsText s tags = .ok text := by
  let shown : Data → Text := fun d => (valueText s d).toOption.getD []
  have hall : ∀ entry ∈ tags, (do return entry.1 ++ "=" ++ (← valueText s entry.2) : Except Misuse Text) =
      .ok (entry.1 ++ "=" ++ shown entry.2) := by
    intro entry hentry
    obtain ⟨text, htext⟩ := h entry hentry
    simp only [shown, htext, Except.toOption, Option.getD_some]
    rfl
  rw [tagsText, Attempt.mapM_ok hall]
  exact ⟨_, rfl⟩

/-- A line is written, or it is below the level in force, if all that it has to show can be shown. -/
theorem Journal.write_ok {s : Store} {logger : Value} {tags : Members Text} {j : Journal} {l : Level} {stamp : Text}
    (h : s.HasLogger logger tags) (hj : j.threshold = .level l)
    (hstamp : Timestamp.ofInstant (Timestamp.instant j.now) = .ok stamp) (level : Level) (message : Text)
    {extra : Members Data} (hextra : ∀ entry ∈ extra, entry.2.Showable s) :
    ∃ last lines, write s logger level (.ofText message) extra j = (.ok (), { j with last, lines }) := by
  obtain ⟨shown, hshown⟩ := Session.messageText?_ofText s message
  by_cases hle : l.severity ≤ level.severity
  case neg => exact ⟨j.last, j.lines, write_below h hj hle⟩
  have htags : ∃ text, LogLine.tagsText s (LogLine.shownTags (LogLine.ownTags tags) extra) = .ok text := by
    refine LogLine.tagsText_ok fun entry hentry => ?_
    obtain ⟨hmem, hpresent⟩ := List.mem_filter.mp hentry
    rcases Members.mem_merge hmem with hown | hmem
    · obtain ⟨text, htext⟩ := LogLine.mem_ownTags hown
      exact ⟨text, by rw [htext, LogLine.valueText_text]⟩
    · rcases hextra entry hmem with hmissing | hshow
      · simp [hmissing] at hpresent
      · exact hshow
  obtain ⟨text, htext⟩ := htags
  exact ⟨_, _, write_stamped h hj hle htext hstamp hshown⟩

/-! ## Stores -/

theorem Store.Matches.foresees {α : Type} {s : Store} {x y : Attempt α} (h : s.Matches x y) :
    s.Foresees Attempt.failure? x y := by
  cases h with
  | same h => exact .same fun id hid => h id (Attempt.eq_error_of_failure? hid)
  | unlisted h =>
    refine .unlisted ?_ h _
    rfl

/-- What a failure is once nothing is left to be listed. -/
def Failure.stopped : Failure → Failure
  | .unlisted _ => .misuse .noMembers
  | failure => failure

def Attempt.stopped {α : Type} : Attempt α → Attempt α
  | .ok a => .ok a
  | .error failure => .error failure.stopped

def Outcome.stopped : Outcome → Outcome
  | .failure f => .failure f.stopped
  | outcome => outcome

/-- A pull whose failure, if any, is what it is once nothing is left to be listed. -/
def Pull.stopped (p : Pull) : Pull := { p with outcome := p.outcome.stopped }

/-- A cell without its links. -/
def Cell.core (c : Cell) : Object × Option ObjectId := (c.object, c.base)

namespace Store

variable {s t u : Store} {id : ObjectId} {names : List Text}

/-- Two stores have the same objects, which extend the same, whatever their links are. -/
def SameObjects (s t : Store) : Prop := t.cells.map Cell.core = s.cells.map Cell.core

theorem SameObjects.refl (s : Store) : s.SameObjects s := rfl

theorem SameObjects.trans (h : s.SameObjects t) (h' : t.SameObjects u) : s.SameObjects u := Eq.trans h' h

theorem SameObjects.symm (h : s.SameObjects t) : t.SameObjects s := Eq.symm h

theorem SameObjects.of_cells (h : t.cells = s.cells) : s.SameObjects t := by rw [SameObjects, h]

theorem SameObjects.size (h : s.SameObjects t) : t.size = s.size := by
  have := congrArg Array.size h
  rw [Array.size_map, Array.size_map] at this
  exact this

/-- Whatever has a layout has a name that can be shown, however objects are linked. -/
def Named (s : Store) : Prop :=
  ∀ t, s.SameObjects t → ∀ id, (t.listing? id).isSome → (Data.leaf (t.lookup id "name")).Showable t

theorem Named.same (h : s.Named) (hst : s.SameObjects t) : t.Named := fun u hu => h u (hst.trans hu)

theorem lt_size_of_listing? (h : (s.listing? id).isSome) : id < s.size := by
  refine Nat.lt_of_not_le fun hge => ?_
  have hlookup : s.lookup id "layout" = .undefined := by
    rw [lookup, seek, seekFrom, cell?_eq_none hge]
  rw [listing?, hlookup] at h
  cases h

theorem SameObjects.cell? (h : s.SameObjects t) (id : ObjectId) :
    (t.cell? id).map Cell.core = (s.cell? id).map Cell.core := by
  have hget : (t.cells.map Cell.core)[id]? = (s.cells.map Cell.core)[id]? := by rw [h]
  rwa [Array.getElem?_map, Array.getElem?_map] at hget

theorem SameObjects.object? (h : s.SameObjects t) (id : ObjectId) : t.object? id = s.object? id := by
  have hcore := congrArg (Option.map Prod.fst) (h.cell? id)
  rwa [Option.map_map, Option.map_map] at hcore

theorem SameObjects.seekFrom (h : s.SameObjects t) (name : Text) (n : Nat) (id : ObjectId) :
    t.seekFrom name n id = s.seekFrom name n id := by
  induction n generalizing id with
  | zero => rfl
  | succ n ih =>
    have hcore := h.cell? id
    rw [Store.seekFrom, Store.seekFrom]
    cases hs : s.cell? id with
    | none =>
      rw [hs] at hcore
      rw [Option.map_eq_none_iff.mp hcore]
    | some c =>
      rw [hs] at hcore
      obtain ⟨c', hc', heq⟩ := Option.map_eq_some_iff.mp hcore
      have hobject : c'.object = c.object := congrArg Prod.fst heq
      have hbase : c'.base = c.base := congrArg Prod.snd heq
      rw [hc']
      simp only [hobject, hbase, ih]

theorem SameObjects.lookup (h : s.SameObjects t) (id : ObjectId) {name : Text} (hname : name ≠ "parent") :
    t.lookup id name = s.lookup id name := by
  have hbase : t.base? id = s.base? id := by
    have hcore := congrArg (·.bind Prod.snd) (h.cell? id)
    rwa [Option.bind_map, Option.bind_map] at hcore
  have hseek : t.seek id name = s.seek id name := by rw [seek, seek, h.size, h.seekFrom]
  rw [Store.lookup, Store.lookup, hseek]
  cases s.seek id name with
  | none => rfl
  | some found =>
    dsimp only
    cases Ground.ofId? found.1 with
    | none => rfl
    | some g => simp only [groundMember, hbase, hname, decide_false, Bool.and_false, Bool.false_eq_true, if_false]

theorem SameObjects.names_eq (h : s.SameObjects t) (v : Value) : t.names v = s.names v := by
  cases v with
  | object id => simp only [Store.names, Store.listed, h.object?]
  | _ => rfl

theorem SameObjects.listing? (h : s.SameObjects t) (id : ObjectId) : t.listing? id = s.listing? id := by
  rw [Store.listing?, Store.listing?, h.lookup id (by decide), h.names_eq]

/-- Whether an object has a text for its name, or none, if it has a layout. -/
def namesText (s : Store) (id : ObjectId) : Bool :=
  (s.listing? id).isNone || match s.lookup id "name" with
    | .undefined | .null | .text _ => true
    | _ => false

/-- Texts can be shown in every store. -/
theorem named_of_texts (h : ∀ id < s.size, s.namesText id = true) : s.Named := by
  intro t ht id hlisting
  rw [ht.listing?] at hlisting
  have hid := h id (lt_size_of_listing? hlisting)
  rw [ht.lookup id (by decide)]
  rw [namesText, Option.isNone_eq_false_iff.mpr hlisting, Bool.false_or] at hid
  cases hname : s.lookup id "name" with
  | undefined | null => exact .inl rfl
  | text name => exact .inr ⟨name, rfl⟩
  | _ =>
    rw [hname] at hid
    cases hid

theorem listing?_of_cells (h : t.cells = s.cells) : t.listing? = s.listing? := by
  rw [eq_withKept h, listing?_withKept]

theorem Contained.of_cells (h : s.Contained) (hcells : t.cells = s.cells) : t.Contained := by
  rw [eq_withKept hcells]
  exact h.withKept _

theorem freshDocument?_of_cells (h : t.cells = s.cells) : t.freshDocument? = s.freshDocument? := by
  rw [eq_withKept h, freshDocument?_withKept]

/-- A primed store has the slot names already that are listed. -/
theorem primed_keepSlotNames (hid : s.Unlisted id) (hnames : s.listing? id = some names) :
    (Session.keepSlotNames s id names).primed = s.primed := by
  refine eq_of_cells rfl fun i hi => ?_
  have hi' : i < s.size := hi
  have hlisting := listing?_of_cells (s := s) (t := Session.keepSlotNames s id names) rfl
  have hfresh := freshDocument?_of_cells (s := s) (t := Session.keepSlotNames s id names) rfl
  rw [kept_primed hi', kept_primed (s := Session.keepSlotNames s id names) hi', filled, filled, hlisting, hfresh,
    Session.keepSlotNames, kept_keep]
  split
  · rename_i heq
    rw [heq.1, hid.kept, hnames]
    rfl
  · rfl

/-- The slot names that a primed store keeps beside an object, which need not be one of the store. -/
theorem slotNames_primed (s : Store) (id : ObjectId) :
    (s.primed.kept id).slotNames = (s.kept id).slotNames.or (s.listing? id) := by
  by_cases hid : id < s.size
  · rw [kept_primed hid]
    rfl
  · have hlisting : s.listing? id = none := Option.not_isSome_iff_eq_none.mp fun h => hid (lt_size_of_listing? h)
    rw [s.kept_new id (Nat.not_lt.mp hid), s.primed.kept_new id (Nat.not_lt.mp hid), hlisting]
    rfl

/-- How many objects have no slot names yet. -/
def missing (s : Store) : Nat := ((Finset.range s.size).filter fun id => (s.kept id).slotNames = none).card

theorem missing_le (s : Store) : s.missing ≤ s.size := by
  refine (Finset.card_filter_le _ _).trans ?_
  rw [Finset.card_range]

theorem missing_keepSlotNames (hid : s.Unlisted id) : (Session.keepSlotNames s id names).missing < s.missing := by
  refine Finset.card_lt_card (Finset.ssubset_iff_of_subset ?_ |>.mpr ⟨id, ?_, ?_⟩)
  · intro i hi
    rw [Finset.mem_filter] at hi ⊢
    refine ⟨hi.1, ?_⟩
    have hkept := hi.2
    rw [Session.keepSlotNames, kept_keep] at hkept
    split at hkept
    · cases hkept
    · exact hkept
  · exact Finset.mem_filter.mpr ⟨Finset.mem_range.mpr hid.lt_size, hid.kept⟩
  · rw [Finset.mem_filter, Session.keepSlotNames, kept_keep, if_pos ⟨rfl, hid.lt_size⟩]
    exact fun h => by cases h.2

end Store

namespace Session

open Store

variable {α ρ : Type} {σ τ υ : Session} {id : ObjectId}

/-! ## Sessions in order -/

/-- A session with a level in force and a clock that shows an instant, in which the loggers of the library have their
operations and nothing but texts for tags, and whose store refers to its own objects only. -/
structure InOrder (σ : Session) : Prop where
  level : ∃ l, σ.journal.threshold = .level l
  stamp : ∃ stamp, Timestamp.ofInstant (Timestamp.instant σ.journal.now) = .ok stamp
  grammar : ∃ own, σ.store.HasLogger grammarLogger own
  schema : ∃ own, σ.store.HasLogger schemaLogger own
  tree : ∃ own, σ.store.HasLogger treeLogger own
  contained : σ.store.Contained

theorem InOrder.keeps (h : InOrder σ) {s : Store} (hk : KeepsLoggers σ.store s) (hs : s.Contained) :
    InOrder { σ with store := s } :=
  ⟨h.level, h.stamp, h.grammar.imp fun _ hown => hk hown, h.schema.imp fun _ hown => hk hown,
    h.tree.imp fun _ hown => hk hown, hs⟩

/-- What the library says of something that can be shown is written, or left out. -/
theorem announce_run (h : InOrder σ) {logger : Value} {own : Members Text} (hlogger : σ.store.HasLogger logger own)
    (level : Level) (message : Text) {extra : Members Data} (hextra : ∀ entry ∈ extra, entry.2.Showable σ.store) :
    ∃ last lines, announce logger level message extra σ =
      (.ok (), { σ with journal := { σ.journal with last, lines } }) := by
  obtain ⟨l, hl⟩ := h.level
  obtain ⟨stamp, hstamp⟩ := h.stamp
  obtain ⟨last, lines, hrun⟩ := Journal.write_ok hlogger hl hstamp level message hextra
  refine ⟨last, lines, ?_⟩
  rw [announce, journaling_run, hrun]
  rfl

/-- A session that differs from another one by what is kept and by lines of the journal at most. -/
structure Later (σ τ : Session) : Prop where
  inOrder : InOrder τ
  primed : τ.store.primed = σ.store.primed
  settings : τ.settings = σ.settings

theorem Later.refl (h : InOrder σ) : Later σ σ := ⟨h, rfl, rfl⟩

theorem Later.trans (h : Later σ τ) (h' : Later τ υ) : Later σ υ :=
  ⟨h'.inOrder, h'.primed.trans h.primed, h'.settings.trans h.settings⟩

theorem Later.sameObjects (h : Later σ τ) : σ.store.SameObjects τ.store := .of_cells (cells_of_primed h.primed)

/-! ## Listing -/

/-- Nothing can be listed without a layout. -/
theorem listSlots_barren (h : σ.store.listing? id = none) : listSlots id σ = (.error (.misuse .noMembers), σ) := by
  have hmissing : (σ.store.lookup id "layout").isMissing = true := by
    rw [listing?] at h
    split at h
    · assumption
    · cases h
  rw [listSlots, bind_ok (reading_run _ σ)]
  rw [if_pos hmissing]
  rfl

/-- Slots that can be listed are listed, if the name of what they belong to can be shown. -/
theorem listSlots_shown (h : InOrder σ) (hid : σ.store.Unlisted id)
    (hname : ∀ t : Store, t.cells = σ.store.cells → (Data.leaf (t.lookup id "name")).Showable t) :
    ∃ names τ, σ.store.listing? id = some names ∧ listSlots id σ = (.ok names, τ) ∧ Later σ τ ∧
      τ.store = keepSlotNames σ.store id names := by
  obtain ⟨names, hnames⟩ := Option.isSome_iff_exists.mp hid.listing
  have hlayout : ¬ (σ.store.lookup id "layout").isMissing = true ∧
      σ.store.names (σ.store.lookup id "layout") = names := by
    rw [listing?] at hnames
    split at hnames
    · cases hnames
    · exact ⟨by assumption, Option.some.inj hnames⟩
  -- The names are kept before the line is written, and the name that it shows is looked up after that.
  let υ : Session := { σ with store := keepSlotNames σ.store id names }
  have hυ : InOrder υ := h.keeps (keepsLoggers_keepSlotNames _ _ _) (h.contained.of_cells rfl)
  have hshow : (Data.leaf (υ.store.lookup id "name")).Showable υ.store := hname υ.store rfl
  obtain ⟨own, hown⟩ := hυ.schema
  let extra : Members Data := [("variant", .leaf (υ.store.lookup id "name")), ("slots", .leaf (.ofNat names.length))]
  have hextra : ∀ entry ∈ extra, entry.2.Showable υ.store := by
    intro entry hentry
    rcases List.mem_pair.mp hentry with rfl | rfl
    · exact hshow
    · exact .inr ⟨_, rfl⟩
  obtain ⟨last, lines, hwrite⟩ := announce_run hυ hown .debug "Cached slot layout" hextra
  refine ⟨names, { υ with journal := { υ.journal with last, lines } }, hnames, ?_, ⟨?_, ?_, rfl⟩, rfl⟩
  · have hmodify : (modify fun session => { session with store := keepSlotNames session.store id names } :
        SessionM Unit) σ = (.ok (), υ) := rfl
    have hget : (get : SessionM Session) σ = (.ok σ, σ) := rfl
    rw [listSlots, bind_ok (reading_run _ σ), if_neg hlayout.1]
    dsimp only
    rw [bind_ok hget, hlayout.2, bind_ok hmodify, bind_ok (reading_run _ υ), bind_ok hwrite]
    rfl
  · exact ⟨hυ.level, hυ.stamp, hυ.grammar, hυ.schema, hυ.tree, hυ.contained⟩
  · exact primed_keepSlotNames hid hnames

theorem listSlots_run (h : InOrder σ) (hn : σ.store.Named) (hid : σ.store.Unlisted id) :
    ∃ names τ, σ.store.listing? id = some names ∧ listSlots id σ = (.ok names, τ) ∧ Later σ τ ∧
      τ.store = keepSlotNames σ.store id names := by
  refine listSlots_shown h hid fun t ht => hn t (.of_cells ht) id ?_
  rw [listing?_of_cells ht]
  exact hid.listing

/-- Slots are listed, so many times, as long as something cannot be found out before that. -/
inductive Listings (failure? : ρ → Option Failure) (find : Store → ρ) : Nat → Session → Session → Prop
  | stop {σ : Session} (h : ∀ id, failure? (find σ.store) = some (.unlisted id) → σ.store.listing? id = none) :
      Listings failure? find 0 σ σ
  | list {n : Nat} {σ τ υ : Session} {id : ObjectId} {names : List Text}
      (h : failure? (find σ.store) = some (.unlisted id)) (hrun : listSlots id σ = (.ok names, τ))
      (hrest : Listings failure? find n τ υ) : Listings failure? find (n + 1) σ υ

variable {failure? : ρ → Option Failure} {find : Store → ρ}

/-- Once all the slots are listed that are needed, the same is found as in the primed store. -/
theorem exists_listings (h : ∀ s : Store, s.Foresees failure? (find s) (find s.primed)) (hσ : InOrder σ)
    (hn : σ.store.Named) :
    ∃ n τ, n ≤ σ.store.missing ∧ Listings failure? find n σ τ ∧ Later σ τ ∧ find τ.store = find σ.store.primed := by
  -- The induction is on how many objects have no slot names yet: each listing leaves fewer.
  induction hm : σ.store.missing using Nat.strongRecOn generalizing σ with
  | ind m ih =>
    subst hm
    have hstop := h σ.store
    generalize hx : find σ.store = x at hstop
    generalize hy : find σ.store.primed = y at hstop
    cases hstop with
    | same hbarren => exact ⟨0, σ, Nat.zero_le _, .stop (by rwa [hx]), .refl hσ, by rw [hx]⟩
    | unlisted hf hid =>
      obtain ⟨names, τ, -, hrun, hlater, hstore⟩ := listSlots_run hσ hn hid
      have hfewer : τ.store.missing < σ.store.missing := by
        rw [hstore]
        exact missing_keepSlotNames hid
      obtain ⟨n, υ, hle, hlistings, hlater', hfind⟩ :=
        ih _ hfewer hlater.inOrder (hn.same hlater.sameObjects) rfl
      refine ⟨n + 1, υ, by omega, .list (by rwa [hx]) hrun hlistings, hlater.trans hlater', ?_⟩
      rw [hfind, hlater.primed, hy]

/-! ## Reading -/

section Observing

variable {read : Store → SessionM α} {tried : Store → Attempt α}

theorem observeWithin_eq (hread : ∀ s, read s = relay (tried s)) {n tries : Nat}
    (h : Listings Attempt.failure? tried n σ τ) (hlt : n < tries) :
    observeWithin read tries σ = relay (tried τ.store).stopped τ := by
  induction h generalizing tries with
  | @stop σ hbarren =>
    obtain ⟨tries, rfl⟩ := Nat.exists_eq_succ_of_ne_zero (by omega : tries ≠ 0)
    rw [Nat.succ_eq_add_one, observeWithin_succ hread]
    rcases htried : tried σ.store with failure | a
    · cases failure with
      | unlisted id => exact bind_error (listSlots_barren (hbarren id (by rw [htried]; rfl)))
      | _ => rfl
    · rfl
  | @list n σ τ υ id names htried hrun _ ih =>
    obtain ⟨tries, rfl⟩ := Nat.exists_eq_succ_of_ne_zero (by omega : tries ≠ 0)
    rw [Nat.succ_eq_add_one, observeWithin_succ hread, Attempt.eq_error_of_failure? htried]
    exact (bind_ok hrun).trans (ih (Nat.lt_of_succ_lt_succ hlt))

/-- So many listings are never too many. -/
theorem lt_of_le_missing {n : Nat} (h : n ≤ σ.store.missing) : n < σ.store.size + 1 :=
  Nat.lt_succ_of_le (h.trans σ.store.missing_le)

/-- Reading comes to what it comes to in the primed store. -/
theorem observe_run (hread : ∀ s, read s = relay (tried s)) (h : ∀ s : Store, s.Matches (tried s) (tried s.primed))
    (hσ : InOrder σ) (hn : σ.store.Named) :
    ∃ τ, Later σ τ ∧ observe read σ = relay (tried σ.store.primed).stopped τ := by
  obtain ⟨n, τ, hle, hlistings, hlater, htried⟩ := exists_listings (fun s => (h s).foresees) hσ hn
  refine ⟨τ, hlater, ?_⟩
  rw [observe, bind_ok (get_run σ), observeWithin_eq hread hlistings (lt_of_le_missing hle), htried]

end Observing

/-- The slot names of a variant are those that the primed store keeps. -/
theorem slotNames_run (v : Variant) (hσ : InOrder σ) (hn : σ.store.Named) :
    ∃ τ, Later σ τ ∧
      slotNames v σ = ((σ.store.primed.kept v.self).slotNames.elim (.error (.misuse .noMembers)) .ok, τ) := by
  rw [slotNames, bind_ok (get_run σ), slotNames_primed]
  cases hkept : (σ.store.kept v.self).slotNames with
  | some names => exact ⟨σ, .refl hσ, rfl⟩
  | none =>
    cases hlisting : σ.store.listing? v.self with
    | none => exact ⟨σ, .refl hσ, listSlots_barren hlisting⟩
    | some names =>
      have hsome : (σ.store.listing? v.self).isSome := by rw [hlisting]; rfl
      obtain ⟨_, τ, hnames, hrun, hlater, -⟩ := listSlots_run hσ hn ⟨lt_size_of_listing? hsome, hkept, hsome⟩
      cases hlisting.symm.trans hnames
      exact ⟨τ, hlater, hrun⟩

/-! ## Building -/

/-- What building comes to: its outcome, and the objects and links after it. -/
def buildResult (work : Building α) (s : Store) : Attempt α × Array Cell := ((work s).1, (work s).2.cells)

/-- What building comes to once nothing is left to be listed. -/
def settle (store : Store) : Attempt α → SessionM α
  | .error (.unlisted _) => throw (.misuse .noMembers)
  | outcome => fun σ => ((relay outcome σ).1, { (relay outcome σ).2 with store })

section Building

variable {work : BuildingT (StateM Session) α} {tried : Building α}

theorem buildWithin_eq (hwork : work = tried.relay) {n tries : Nat}
    (h : Listings (fun r => Attempt.failure? r.1) (buildResult tried) n σ τ) (hlt : n < tries) :
    buildWithin work tries σ = settle (tried τ.store).2 (tried τ.store).1 τ := by
  induction h generalizing tries with
  | @stop σ hbarren =>
    obtain ⟨tries, rfl⟩ := Nat.exists_eq_succ_of_ne_zero (by omega : tries ≠ 0)
    rw [Nat.succ_eq_add_one, buildWithin_succ hwork]
    rcases htried : tried σ.store with ⟨failure | a, t⟩
    · cases failure with
      | unlisted id => exact bind_error (listSlots_barren (hbarren id (by rw [buildResult, htried]; rfl)))
      | _ => rfl
    · rfl
  | @list n σ τ υ id names htried hrun _ ih =>
    obtain ⟨tries, rfl⟩ := Nat.exists_eq_succ_of_ne_zero (by omega : tries ≠ 0)
    rcases hresult : tried σ.store with ⟨outcome, t⟩
    rw [buildResult, hresult] at htried
    cases Attempt.eq_error_of_failure? htried
    rw [Nat.succ_eq_add_one, buildWithin_succ hwork, hresult]
    exact (bind_ok hrun).trans (ih (Nat.lt_of_succ_lt_succ hlt))

/-- Building comes to what it comes to in the primed store. -/
theorem build_run (hwork : work = tried.relay)
    (h : ∀ s : Store, s.Foresees (fun r => Attempt.failure? r.1) (buildResult tried s) (buildResult tried s.primed))
    (hσ : InOrder σ) (hn : σ.store.Named) :
    ∃ τ, Later σ τ ∧ buildResult tried τ.store = buildResult tried σ.store.primed ∧
      build work σ = settle (tried τ.store).2 (tried τ.store).1 τ := by
  obtain ⟨n, τ, hle, hlistings, hlater, htried⟩ := exists_listings h hσ hn
  refine ⟨τ, hlater, htried, ?_⟩
  rw [build, bind_ok (get_run σ), buildWithin_eq hwork hlistings (lt_of_le_missing hle)]

end Building

/-! ## Recording and pulling -/

theorem observing_of {work : SessionM α} {outcome : Except Failure α} (h : work σ = (outcome, τ)) :
    observing work σ = (.ok outcome, τ) := by
  rw [observing_run, h]

theorem nodesWithin_eq {root : ObjectId} {n tries : Nat} (h : Listings Prod.snd (·.nodesOf root) n σ τ)
    (hlt : n < tries) :
    nodesWithin root tries σ = (.ok ((τ.store.nodesOf root).1, (τ.store.nodesOf root).2.map Failure.stopped), τ) := by
  induction h generalizing tries with
  | @stop σ hbarren =>
    obtain ⟨tries, rfl⟩ := Nat.exists_eq_succ_of_ne_zero (by omega : tries ≠ 0)
    rw [Nat.succ_eq_add_one, nodesWithin, bind_ok (get_run σ)]
    rcases hnodes : σ.store.nodesOf root with ⟨nodes, _ | failure⟩
    · rfl
    · cases failure with
      | unlisted id =>
        have hrun := listSlots_barren (hbarren id (by rw [hnodes]))
        exact bind_ok (observing_of hrun)
      | _ => rfl
  | @list n σ τ υ id names hnodes hrun _ ih =>
    obtain ⟨tries, rfl⟩ := Nat.exists_eq_succ_of_ne_zero (by omega : tries ≠ 0)
    rcases hresult : σ.store.nodesOf root with ⟨nodes, failure⟩
    rw [hresult] at hnodes
    cases hnodes
    rw [Nat.succ_eq_add_one, nodesWithin, bind_ok (get_run σ), hresult]
    exact (bind_ok (observing_of hrun)).trans (ih (Nat.lt_of_succ_lt_succ hlt))

theorem nodesWithin_run (root : ObjectId) (hσ : InOrder σ) (hn : σ.store.Named) :
    ∃ τ, Later σ τ ∧ nodesWithin root (σ.store.size + 1) σ =
      (.ok ((σ.store.primed.nodesOf root).1, (σ.store.primed.nodesOf root).2.map Failure.stopped), τ) := by
  obtain ⟨n, τ, hle, hlistings, hlater, hnodes⟩ := exists_listings (fun s => foresees_nodesOf root) hσ hn
  refine ⟨τ, hlater, ?_⟩
  rw [nodesWithin_eq hlistings (lt_of_le_missing hle), hnodes]

variable {predicate : Option (Store → Predicate)} {w : Walk}

theorem pullWithin_eq {n tries : Nat}
    (h : Listings Pull.failure? (fun s => w.next s (predicate.map (· s))) n σ τ) (hlt : n < tries) :
    pullWithin predicate w tries σ = ExceptT.lift (w.next τ.store (predicate.map (· τ.store))).stopped.relay τ := by
  induction h generalizing tries with
  | @stop σ hbarren =>
    obtain ⟨tries, rfl⟩ := Nat.exists_eq_succ_of_ne_zero (by omega : tries ≠ 0)
    rcases hnext : w.next σ.store (predicate.map (· σ.store)) with ⟨asked, outcome, after⟩
    rw [Nat.succ_eq_add_one, pullWithin_succ hnext, hnext]
    cases outcome with
    | failure f =>
      cases f with
      | unlisted id =>
        have hrun := listSlots_barren (hbarren id (by rw [hnext]; rfl))
        exact bind_ok (observing_of hrun)
      | _ => rfl
    | _ => rfl
  | @list n σ τ υ id names hpull hrun _ ih =>
    obtain ⟨tries, rfl⟩ := Nat.exists_eq_succ_of_ne_zero (by omega : tries ≠ 0)
    rcases hnext : w.next σ.store (predicate.map (· σ.store)) with ⟨asked, outcome, after⟩
    rw [Nat.succ_eq_add_one, pullWithin_succ hnext]
    rw [hnext] at hpull
    cases outcome with
    | failure f =>
      cases hpull
      exact (bind_ok (observing_of hrun)).trans (ih (Nat.lt_of_succ_lt_succ hlt))
    | _ => cases hpull

/-- A pull comes to what it comes to in the primed store. -/
theorem pull_run (h : ∀ s : Store, s.Foresees Pull.failure? (w.next s (predicate.map (· s)))
      (w.next s.primed (predicate.map (· s.primed)))) (hσ : InOrder σ) (hn : σ.store.Named) :
    ∃ τ, Later σ τ ∧
      pull predicate w σ = ExceptT.lift (w.next σ.store.primed (predicate.map (· σ.store.primed))).stopped.relay τ := by
  let next (s : Store) : Pull := w.next s (predicate.map (· s))
  have hforesees : ∀ s : Store, s.Foresees Pull.failure? (next s) (next s.primed) := h
  obtain ⟨n, τ, hle, hlistings, hlater, hnext⟩ := exists_listings hforesees hσ hn
  refine ⟨τ, hlater, ?_⟩
  rw [pull, bind_ok (get_run σ), pullWithin_eq hlistings (lt_of_le_missing hle)]
  exact congrArg (fun p : Pull => (ExceptT.lift p.stopped.relay : SessionM Pull) τ) hnext

end Session

end LosslessSyntax
