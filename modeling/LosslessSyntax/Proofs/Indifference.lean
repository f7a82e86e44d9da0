import LosslessSyntax.Proofs.Operations
import LosslessSyntax.Proofs.Pairs

/-!
# Indifference to the journal and to what is kept

Two sessions are paired (`Session.Paired`) if both are in order and their stores are the same once primed: they can
differ in the level, the clock, the lines written so far, the log level of the settings, the tags of loggers, and in
what has been asked for before. Whatever a client asks for, it is given the same in both of them, and the objects and
links are the same after each operation (`Client.run_eq`), as long as whatever has a layout has a name that can be shown.

* `Session.Alike`: some work comes to the same in two sessions, and leaves them related.
* `Session.Steady`: work that only reads, or that only changes links, is alike in every pair and leaves a pair.
* `Session.alike_build`: so is work that builds; its stores have grown out of a pair (`Session.Branched`), so that a new
  object can still be changed.
-/

namespace LosslessSyntax

namespace Session

open Store

variable {α β : Type} {σ τ σ' τ' : Session} {x work : SessionM α} {f : α → SessionM β} {n : Nat}

/-! ## Failures -/

/-- What a failure turns into when it is reported: if a fault of a tree cannot be shown, the report fails instead. -/
def reported (s : Store) : Failure → Failure
  | .fault (.tree fault) =>
    match LogLine.valueText s (Fault.tree fault).toData with
    | .ok _ => .fault (.tree fault)
    | .error m => .misuse m
  | failure => failure

theorem reported_withKept (s : Store) (k : ObjectId → Kept) : reported (s.withKept k) = reported s := by
  funext failure
  simp only [reported, LogLine.valueText_withKept]

/-- A session in which the time of the last line and the lines are others. -/
def relined (σ : Session) (last : Number) (lines : Array Text) : Session :=
  { σ with journal := { σ.journal with last, lines } }

theorem InOrder.relined (h : InOrder σ) (last : Number) (lines : Array Text) : InOrder (σ.relined last lines) :=
  ⟨h.level, h.stamp, h.grammar, h.schema, h.tree, h.contained⟩

/-- A fault of a tree is announced before it is thrown, and the line about it shows what it is about. -/
theorem thrown_tree_run (h : InOrder σ) (fault : TreeFault) :
    ∃ last lines, thrown (.ofTree fault) σ = (reported σ.store (.ofTree fault), σ.relined last lines) := by
  obtain ⟨l, hl⟩ := h.level
  obtain ⟨stamp, hstamp⟩ := h.stamp
  obtain ⟨own, hown⟩ := h.tree
  obtain ⟨shown, hshown⟩ := messageText?_ofText σ.store (faultMessage fault)
  have hle : l.severity ≤ Level.error.severity := by cases l <;> decide
  have htags := LogLine.tagsText_set σ.store own "error" (d := (Fault.tree fault).toData) rfl
  have hannounce := journaling_run (fun s => Journal.write s treeLogger .error (.ofText (faultMessage fault))
    [("error", (Fault.tree fault).toData)]) σ
  rw [thrown, relay_tree]
  cases hvalue : LogLine.valueText σ.store (Fault.tree fault).toData with
  | ok text =>
    rw [hvalue] at htags
    rw [Journal.write_stamped hown hl hle htags hstamp hshown] at hannounce
    have hrun : ∃ last lines,
        announce treeLogger .error (faultMessage fault) [("error", (Fault.tree fault).toData)] σ =
        (.ok (), σ.relined last lines) := ⟨_, _, hannounce⟩
    obtain ⟨last, lines, hrun⟩ := hrun
    refine ⟨last, lines, ?_⟩
    rw [bind_ok hrun, Failure.ofTree, reported, hvalue]
    rfl
  | error m =>
    rw [hvalue] at htags
    rw [Journal.write_untagged hown hl hle htags] at hannounce
    refine ⟨σ.journal.last, σ.journal.lines, ?_⟩
    rw [announce, bind_error hannounce, Failure.ofTree, reported, hvalue]
    rfl

theorem thrown_run (h : InOrder σ) (failure : Failure) :
    ∃ last lines, thrown failure σ = (reported σ.store failure, σ.relined last lines) := by
  cases failure with
  | misuse m => exact ⟨σ.journal.last, σ.journal.lines, rfl⟩
  | unlisted id => exact ⟨σ.journal.last, σ.journal.lines, rfl⟩
  | fault fault =>
    cases fault with
    | tree fault => exact thrown_tree_run h fault
    | _ => exact ⟨σ.journal.last, σ.journal.lines, rfl⟩

/-! ## Pairs -/

/-- Two sessions that can differ in the journal, in the log level of the settings, and in what is kept beside objects as
far as it is what would be found now. -/
structure Paired (σ τ : Session) : Prop where
  left : InOrder σ
  right : InOrder τ
  primed : τ.store.primed = σ.store.primed
  format : τ.settings.tokenFormat = σ.settings.tokenFormat

theorem Paired.cells (h : Paired σ τ) : τ.store.cells = σ.store.cells := cells_of_primed h.primed

theorem Paired.store (h : Paired σ τ) : τ.store = σ.store.withKept τ.store.kept := eq_withKept h.cells

theorem Paired.named (h : Paired σ τ) (hn : σ.store.Named) : τ.store.Named := hn.same (.of_cells h.cells)

theorem Paired.later (h : Paired σ τ) (hσ : Later σ σ') (hτ : Later τ τ') : Paired σ' τ' :=
  ⟨hσ.inOrder, hτ.inOrder, hτ.primed.trans (h.primed.trans hσ.primed.symm),
    by rw [hτ.settings, hσ.settings, h.format]⟩

theorem Paired.relined (h : Paired σ τ) (last last' : Number) (lines lines' : Array Text) :
    Paired (σ.relined last lines) (τ.relined last' lines') :=
  ⟨h.left.relined _ _, h.right.relined _ _, h.primed, h.format⟩

/-- Work comes to the same in two sessions, and leaves them related. -/
def Alike (R : Except Failure α → Session → Session → Prop) (work : SessionM α) (σ τ : Session) : Prop :=
  (work τ).1 = (work σ).1 ∧ R (work σ).1 (work σ).2 (work τ).2

variable {R : Except Failure α → Session → Session → Prop} {R' : Except Failure β → Session → Session → Prop}

theorem Alike.of_run {outcome : Except Failure α} (hσ : work σ = (outcome, σ')) (hτ : work τ = (outcome, τ'))
    (h : R outcome σ' τ') : Alike R work σ τ := by
  rw [Alike, hσ, hτ]
  exact ⟨rfl, h⟩

/-- Work that comes to other work in other sessions. -/
theorem Alike.of_eq {y : SessionM α} (hσ : work σ = y σ') (hτ : work τ = y τ') (h : Alike R y σ' τ') :
    Alike R work σ τ := by
  rw [Alike, hσ, hτ]
  exact h

theorem Alike.bind (hx : Alike R x σ τ)
    (hstop : ∀ failure, R (.error failure) (x σ).2 (x τ).2 → R' (.error failure) (x σ).2 (x τ).2)
    (hf : ∀ a, x σ = (.ok a, (x σ).2) → R (.ok a) (x σ).2 (x τ).2 → Alike R' (f a) (x σ).2 (x τ).2) :
    Alike R' (x >>= f) σ τ := by
  obtain ⟨houtcome, hrelated⟩ := hx
  cases hrun : (x σ).1 with
  | error failure =>
    have hσ : (x >>= f) σ = (.error failure, (x σ).2) := bind_error (Prod.ext hrun rfl)
    have hτ : (x >>= f) τ = (.error failure, (x τ).2) := bind_error (Prod.ext (houtcome.trans hrun) rfl)
    exact .of_run hσ hτ (hstop failure (hrun ▸ hrelated))
  | ok a =>
    have hσ : x σ = (.ok a, (x σ).2) := Prod.ext hrun rfl
    have hτ : x τ = (.ok a, (x τ).2) := Prod.ext (houtcome.trans hrun) rfl
    exact .of_eq (bind_ok hσ) (bind_ok hτ) (hf a hσ (hrun ▸ hrelated))

/-! ## Work that leaves objects as they are -/

/-- Work that changes no objects, but perhaps links and what is kept. -/
def Still (work : SessionM α) : Prop := ∀ σ : Session, σ.store.SameObjects (work σ).2.store

theorem Intact.still (h : Intact work) : Still work := fun σ => .of_cells (h σ)

theorem Still.bind (hx : Still x) (hf : ∀ a, Still (f a)) : Still (x >>= f) := by
  intro σ
  rcases hrun : x σ with ⟨failure | a, τ⟩
  · have hx := hx σ
    rw [bind_error hrun]
    rw [hrun] at hx
    exact hx
  · have hx := hx σ
    rw [bind_ok hrun]
    rw [hrun] at hx
    exact hx.trans (hf a τ)

theorem still_modify {change : Store → Store} (h : ∀ s : Store, s.SameObjects (change s)) :
    Still (modify fun session => { session with store := change session.store } : SessionM Unit) := fun σ => h σ.store

theorem still_recordRoots (root : ObjectId) : Still (recordRoots root) := by
  refine intact_get.still.bind fun session => (gentle_nodesWithin root _).intact.still.bind fun found => ?_
  rcases found with ⟨nodes, failure⟩
  refine (still_modify fun s => sameObjects_recordRoot s root nodes).bind fun _ => ?_
  cases failure with
  | none => exact (intact_pure _).still
  | some failure => exact (intact_throw failure).still

/-! ## Work that is alike in pairs -/

/-- Work that changes no objects, and is alike in every pair in which whatever has a layout has a name. -/
structure Steady (work : SessionM α) : Prop where
  still : Still work
  alike : ∀ {σ τ}, Paired σ τ → σ.store.Named → Alike (fun _ => Paired) work σ τ

theorem Steady.bind (hx : Steady x) (hf : ∀ a, Steady (f a)) : Steady (x >>= f) where
  still := hx.still.bind fun a => (hf a).still
  alike h hn := (hx.alike h hn).bind (fun _ => id) fun a _ hpair => (hf a).alike hpair (hn.same (hx.still _))

theorem steady_pure (a : α) : Steady (pure a : SessionM α) :=
  ⟨(intact_pure a).still, fun h _ => .of_run rfl rfl h⟩

theorem steady_throw (failure : Failure) : Steady (throw failure : SessionM α) :=
  ⟨(intact_throw failure).still, fun h _ => .of_run rfl rfl h⟩

theorem steady_attempt (outcome : Attempt α) : Steady (attempt outcome) := by
  cases outcome with
  | ok a => exact steady_pure a
  | error failure => exact steady_throw failure

/-- Work that goes by the store, but not by what is kept. -/
theorem Alike.get_bind {f : Session → SessionM α} (hf : f τ = f σ) (halike : Alike R (f σ) σ τ) :
    Alike R (get >>= f) σ τ :=
  .of_eq (bind_ok (get_run σ)) ((bind_ok (get_run τ)).trans (congrFun hf τ)) halike

theorem steady_get_bind {f : Store → SessionM α} (hf : ∀ s k, f (s.withKept k) = f s) (h : ∀ s, Steady (f s)) :
    Steady (get >>= fun session => f session.store) where
  still := intact_get.still.bind fun session => (h session.store).still
  alike hpair hn := .get_bind (by rw [hpair.store, hf]) ((h _).alike hpair hn)

theorem steady_get_store (f : Store → α) (hf : ∀ s k, f (s.withKept k) = f s) :
    Steady (do return f (← get).store : SessionM α) :=
  steady_get_bind (f := fun s => pure (f s)) (fun s k => by rw [hf]) fun _ => steady_pure _

theorem steady_reading {read : Store → Except Misuse α} (h : ∀ s k, read (s.withKept k) = read s) :
    Steady (reading read) where
  still := (gentle_reading read).intact.still
  alike {σ τ} hpair _ := by
    refine .of_run (reading_run read σ) ((reading_run read τ).trans ?_) hpair
    rw [hpair.store, h]

/-- A change after which the stores of a pair are the same once primed. -/
theorem steady_modify {change : Store → Store} (hobjects : ∀ s : Store, s.SameObjects (change s))
    (hloggers : ∀ s, KeepsLoggers s (change s)) (hcontained : ∀ {s : Store}, s.Contained → (change s).Contained)
    (hprimed : ∀ {s t : Store}, s.Contained → t.primed = s.primed → (change t).primed = (change s).primed) :
    Steady (modify fun session => { session with store := change session.store } : SessionM Unit) where
  still := still_modify hobjects
  alike h _ := .of_run rfl rfl
    { left := h.left.keeps (hloggers _) (hcontained h.left.contained)
      right := h.right.keeps (hloggers _) (hcontained h.right.contained)
      primed := hprimed h.left.contained h.primed
      format := h.format }

/-- In a pair, the same is thrown for a failure. -/
theorem Paired.thrown_run (h : Paired σ τ) (failure : Failure) :
    ∃ thrown' σ' τ', thrown failure σ = (thrown', σ') ∧ thrown failure τ = (thrown', τ') ∧ Paired σ' τ' := by
  obtain ⟨last, lines, hσ⟩ := Session.thrown_run h.left failure
  obtain ⟨last', lines', hτ⟩ := Session.thrown_run h.right failure
  rw [h.store, reported_withKept] at hτ
  exact ⟨_, _, _, hσ, hτ, h.relined ..⟩

theorem steady_relay (outcome : Attempt α) : Steady (relay outcome) where
  still := (intact_relay outcome).still
  alike {σ τ} h hn := by
    cases outcome with
    | ok a => exact (steady_pure a).alike h hn
    | error failure =>
      obtain ⟨thrown', σ', τ', hσ, hτ, hpair⟩ := h.thrown_run failure
      exact .of_run ((relay_error_run failure σ).trans (by rw [hσ])) ((relay_error_run failure τ).trans (by rw [hτ]))
        hpair

/-! ### Reading -/

section Observing

variable {read : Store → SessionM α} {tried : Store → Attempt α}

theorem steady_observe (hread : ∀ s, read s = relay (tried s))
    (h : ∀ s : Store, s.Matches (tried s) (tried s.primed)) : Steady (observe read) where
  still := (intact_observe hread).still
  alike {σ τ} hpair hn := by
    obtain ⟨σ', hσ, hrun⟩ := observe_run hread h hpair.left hn
    obtain ⟨τ', hτ, hrun'⟩ := observe_run hread h hpair.right (hpair.named hn)
    rw [hpair.primed] at hrun'
    exact .of_eq hrun hrun' ((steady_relay _).alike (hpair.later hσ hτ) (hn.same hσ.sameObjects))

theorem steady_observe_listed (hread : ∀ s, read s = relay (tried s)) (h : ∀ s k, tried (s.withKept k) = tried s)
    (hl : ∀ s, (tried s).Listed) : Steady (observe read) :=
  steady_observe hread fun s => by
    rw [h]
    exact .of_listed (hl s)

end Observing

theorem steady_slotNames (v : Variant) : Steady (slotNames v) where
  still := (gentle_slotNames v).intact.still
  alike {σ τ} hpair hn := by
    obtain ⟨σ', hσ, hrun⟩ := slotNames_run v hpair.left hn
    obtain ⟨τ', hτ, hrun'⟩ := slotNames_run v hpair.right (hpair.named hn)
    rw [hpair.primed] at hrun'
    exact .of_run hrun hrun' (hpair.later hσ hτ)

theorem steady_askSlotNames (v : Variant) (input : Input) : Steady (askSlotNames v input) := by
  unfold askSlotNames
  split
  · exact (steady_slotNames v).bind fun _ => steady_pure _
  · exact steady_pure _

theorem intact_relayPull (p : Pull) : Intact (ExceptT.lift p.relay : SessionM Pull) := by
  obtain ⟨asked, outcome, after⟩ := p
  cases outcome with
  | failure f =>
    intro σ
    obtain ⟨j, hthrown, -⟩ := thrown_cases f σ
    exact congrArg (·.store.cells) hthrown
  | _ => exact fun _ => rfl

theorem intact_pull (predicate : Option (Store → Predicate)) (w : Walk) : Intact (pull predicate w) := by
  have hwithin : ∀ tries, Intact (pullWithin predicate w tries) := by
    intro tries
    induction tries with
    | zero => exact intact_pure _
    | succ tries ih =>
      intro σ
      rw [pullWithin_succ rfl]
      split
      · refine ((gentle_listSlots _).intact.observed.bind fun outcome => ?_) σ
        cases outcome with
        | ok names => exact ih
        | error failure => exact intact_pure _
      · exact intact_relayPull _ σ
  exact intact_get.bind fun _ => hwithin _

/-- What a pull comes to is handed out alike. -/
theorem steady_relayPull (p : Pull) : Steady (ExceptT.lift p.relay : SessionM Pull) where
  still := (intact_relayPull p).still
  alike {σ τ} h hn := by
    obtain ⟨asked, outcome, after⟩ := p
    cases outcome with
    | failure f =>
      obtain ⟨thrown', σ', τ', hσ, hτ, hpair⟩ := h.thrown_run f
      have hrun : ∀ {σ σ' : Session}, thrown f σ = (thrown', σ') →
          (ExceptT.lift (Pull.relay ⟨asked, .failure f, after⟩) : SessionM Pull) σ =
            (.ok ⟨asked, .failure thrown', after⟩, σ') := by
        intro σ σ' hthrown
        rw [lift_run, Pull.relay_failure_run, hthrown]
      exact .of_run (hrun hσ) (hrun hτ) hpair
    | _ => exact .of_run rfl rfl h

theorem steady_pull {predicate : Option (Store → Predicate)} {w : Walk}
    (h : ∀ s : Store, s.Foresees Pull.failure? (w.next s (predicate.map (· s)))
      (w.next s.primed (predicate.map (· s.primed)))) : Steady (pull predicate w) where
  still := (intact_pull predicate w).still
  alike {σ τ} hpair hn := by
    obtain ⟨σ', hσ, hrun⟩ := pull_run h hpair.left hn
    obtain ⟨τ', hτ, hrun'⟩ := pull_run h hpair.right (hpair.named hn)
    rw [hpair.primed] at hrun'
    exact .of_eq hrun hrun' ((steady_relayPull _).alike (hpair.later hσ hτ) (hn.same hσ.sameObjects))

theorem steady_tokenFormat (options : Value) : Steady (tokenFormat options) := by
  refine (steady_reading fun s k => by rw [askedFormat?_withKept]).bind fun asked => ⟨?_, fun {σ τ} hpair _ => ?_⟩
  · exact (intact_get.bind fun _ => intact_pure _).still
  · have hrun : ∀ σ, (return asked.getD (← get).settings.tokenFormat : SessionM TokenFormat) σ =
        (.ok (asked.getD σ.settings.tokenFormat), σ) := fun _ => rfl
    refine .of_run (hrun σ) ((hrun τ).trans ?_) hpair
    rw [hpair.format]

/-! ### Positions -/

/-- What is done with a document, if it does not matter whether the lines of a text have been found. -/
theorem steady_document_bind {f : Document → SessionM α} (file : Value) (hsettled : ∀ d, f d.settled = f d)
    (hf : ∀ d, Steady (f d)) : Steady (document file >>= f) where
  still := (gentle_document file).intact.still.bind fun d => (hf d).still
  alike {σ τ} hpair hn := by
    have hfail : ∀ {σ : Session} {m : Misuse}, σ.store.document file = .error m →
        document file σ = (.error (.misuse m), σ) := by
      intro σ m h
      rw [document, changing_run, h]
      rfl
    have hgive : ∀ {σ : Session} {d : Document} {s : Store}, σ.store.document file = .ok (d, s) →
        document file σ = (.ok d, { σ with store := s }) := by
      intro σ d s h
      rw [document, changing_run, h]
      rfl
    have hkeep : ∀ {σ : Session} {d : Document} {s : Store}, InOrder σ → σ.store.document file = .ok (d, s) →
        InOrder { σ with store := s } := fun hσ h =>
      hσ.keeps (keepsLoggers_document h) (hσ.contained.of_cells (cells_document h))
    rcases document_same hpair.primed file with ⟨m, h, h'⟩ | ⟨d, s, d', t, h, h', hd, ht⟩
    · exact .of_run (bind_error (hfail h)) (bind_error (hfail h')) hpair
    · have hpair' : Paired { σ with store := s } { τ with store := t } :=
        ⟨hkeep hpair.left h, hkeep hpair.right h', ht, hpair.format⟩
      refine .of_eq (bind_ok (hgive h)) ((bind_ok (hgive h')).trans ?_)
        ((hf d).alike hpair' (hn.same (.of_cells (cells_document h))))
      rw [← hsettled d', hd, hsettled]

theorem steady_findLines (file : Value) (d : Document) : Steady (findLines file d) := by
  refine (steady_reading fun s k => by rw [lineStarts_withKept]).bind fun _ => steady_modify
    (fun s => .of_cells (cells_noteLines s file)) (fun s => keepsLoggers_noteLines s file)
    (fun h => h.of_cells (cells_noteLines _ file)) fun {s t} _ h => ?_
  rw [primed_noteLines, primed_noteLines, h]

theorem findLines_settled (file : Value) (d : Document) : findLines file d.settled = findLines file d := by
  simp only [findLines, lineStarts_settled]

theorem steady_positionAt (file offset : Value) : Steady (positionAt file offset) := by
  refine steady_document_bind file (fun d => ?_) fun d => ?_
  · simp only [clampedOffset_settled, findLines_settled, positionIn_settled]
  · exact (steady_reading fun s k => by rw [clampedOffset_withKept]).bind fun _ =>
      (steady_findLines file d).bind fun _ => steady_reading fun s k => by rw [positionIn_withKept]

theorem steady_offsetAt (file line character : Value) : Steady (offsetAt file line character) := by
  refine steady_document_bind file (fun d => ?_) fun d => ?_
  · simp only [findLines_settled, offsetIn_settled]
  · exact (steady_findLines file d).bind fun _ => steady_reading fun s k => by rw [offsetIn_withKept]

theorem steady_rangeFrom {first : Store → Value → SessionM Number} {tried : Store → Value → Attempt Number} {v : Value}
    (hread : ∀ s, first s v = relay (tried s v)) (hfirst : ∀ s : Store, s.Matches (tried s v) (tried s.primed v)) :
    Steady (rangeFrom first v) := by
  refine (steady_observe_listed (root_eq_relay · v) (fun s k => by rw [root_withKept]) fun s => listed_root v).bind
    fun root => steady_document_bind _ (fun _ => rfl) fun _ => ?_
  refine (steady_observe hread hfirst).bind fun start => (steady_positionAt _ _).bind fun start => ?_
  exact (steady_observe (stop_eq_relay · v) fun s => matches_stop v).bind fun stop =>
    (steady_positionAt _ _).bind fun _ => steady_pure _

/-! ### Links -/

theorem steady_recordRoots (root : ObjectId) : Steady (recordRoots root) where
  still := still_recordRoots root
  alike {σ τ} hpair hn := by
    obtain ⟨σ', hσ, hrun⟩ := nodesWithin_run root hpair.left hn
    obtain ⟨τ', hτ, hrun'⟩ := nodesWithin_run root hpair.right (hpair.named hn)
    rw [hpair.primed] at hrun'
    generalize hfound : σ.store.primed.nodesOf root = found at hrun hrun'
    rcases found with ⟨nodes, failure⟩
    let mark : SessionM Unit := modify fun session => { session with store := session.store.recordRoot root nodes }
    have hmark : Steady mark := by
      refine steady_modify (fun s => sameObjects_recordRoot s root nodes) (keepsLoggers_recordRoot root nodes)
        (fun h => h.recordRoot root nodes) fun {s t} hs h => ?_
      exact hs.primed_expands h (expands_recordRoot s root nodes) (expands_recordRoot t root nodes)
        (cells_recordRoot (cells_of_primed h) root nodes)
    have halike : ∀ {f : Unit → SessionM Unit}, (∀ u, Steady (f u)) → Alike (fun _ => Paired) (mark >>= f) σ' τ' :=
      fun hf => (hmark.bind hf).alike (hpair.later hσ hτ) (hn.same hσ.sameObjects)
    cases failure with
    | none =>
      exact .of_eq ((bind_ok (get_run σ)).trans (bind_ok hrun)) ((bind_ok (get_run τ)).trans (bind_ok hrun'))
        (halike fun _ => steady_pure ())
    | some failure =>
      exact .of_eq ((bind_ok (get_run σ)).trans (bind_ok hrun)) ((bind_ok (get_run τ)).trans (bind_ok hrun'))
        (halike fun _ => steady_throw failure.stopped)

/-! ## Building -/

/-- Two sessions whose stores have grown out of stores with so many objects that were the same once primed. -/
structure Branched (n : Nat) (σ τ : Session) : Prop where
  left : InOrder σ
  right : InOrder τ
  stems : ∃ s t : Store, s.size = n ∧ s.Contained ∧ t.primed = s.primed ∧ s.Expands σ.store ∧ t.Expands τ.store
  cells : τ.store.cells = σ.store.cells
  format : τ.settings.tokenFormat = σ.settings.tokenFormat

theorem Branched.paired (h : Branched n σ τ) : Paired σ τ := by
  obtain ⟨s, t, _, hs, hprimed, hσ, hτ⟩ := h.stems
  exact ⟨h.left, h.right, hs.primed_expands hprimed hσ hτ h.cells, h.format⟩

theorem Paired.branched (h : Paired σ τ) : Branched σ.store.size σ τ :=
  ⟨h.left, h.right, ⟨σ.store, τ.store, rfl, h.left.contained, h.primed, .refl _, .refl _⟩, h.cells, h.format⟩

theorem Branched.relined (h : Branched n σ τ) (last last' : Number) (lines lines' : Array Text) :
    Branched n (σ.relined last lines) (τ.relined last' lines') :=
  ⟨h.left.relined _ _, h.right.relined _ _, h.stems, h.cells, h.format⟩

/-- The same, where moreover what came to be is a new object, if anything. -/
def Budded (n : Nat) (outcome : Except Failure ObjectId) (σ τ : Session) : Prop :=
  Branched n σ τ ∧ ∀ id, outcome = .ok id → n ≤ id

theorem Branched.budded (h : Branched n σ τ) (failure : Failure) : Budded n (.error failure) σ τ :=
  ⟨h, fun _ heq => by cases heq⟩

theorem Paired.budded (h : Paired σ τ) (hsize : σ.store.size = n) (failure : Failure) : Budded n (.error failure) σ τ :=
  (hsize ▸ h.branched : Branched n σ τ).budded failure

/-- Building is alike in pairs, if it adds to the store and comes to the same in the primed store. -/
theorem alike_build {work : BuildingT (StateM Session) ObjectId} {tried : Building ObjectId}
    (hwork : work = tried.relay) (hforesees : ∀ s : Store,
      s.Foresees (fun r => Attempt.failure? r.1) (buildResult tried s) (buildResult tried s.primed))
    (hexpands : ∀ s : Store, s.Expands (tried s).2) (hnew : ∀ s id, (tried s).1 = .ok id → s.size ≤ id)
    (hcontained : ∀ s : Store, s.cells = σ.store.cells → s.Contained → (tried s).2.Contained)
    (h : Paired σ τ) (hn : σ.store.Named) : Alike (Budded σ.store.size) (build work) σ τ := by
  obtain ⟨σ', hσ, hresult, hrun⟩ := build_run hwork hforesees h.left hn
  obtain ⟨τ', hτ, hresult', hrun'⟩ := build_run hwork hforesees h.right (h.named hn)
  have hpair : Paired σ' τ' := h.later hσ hτ
  have hcells : σ'.store.cells = σ.store.cells := cells_of_primed hσ.primed
  rw [h.primed, ← hresult] at hresult'
  have houtcome : (tried τ'.store).1 = (tried σ'.store).1 :=
    congrArg (fun r : Attempt ObjectId × Array Cell => r.1) hresult'
  have hgrown : (tried τ'.store).2.cells = (tried σ'.store).2.cells :=
    congrArg (fun r : Attempt ObjectId × Array Cell => r.2) hresult'
  have hsize : σ'.store.size = σ.store.size := by rw [size, size, hcells]
  have hkeeps : ∀ {υ : Session}, InOrder υ → υ.store.cells = σ.store.cells →
      InOrder { υ with store := (tried υ.store).2 } := fun hυ hsame =>
    hυ.keeps (fun _ _ hlogger => hlogger.expands (hexpands _)) (hcontained _ hsame hυ.contained)
  have hbranched :
      Branched σ.store.size { σ' with store := (tried σ'.store).2 } { τ' with store := (tried τ'.store).2 } :=
    { left := hkeeps hpair.left hcells
      right := hkeeps hpair.right (hpair.cells.trans hcells)
      stems := ⟨_, _, hsize, hpair.left.contained, hpair.primed, hexpands _, hexpands _⟩
      cells := hgrown
      format := hpair.format }
  rw [houtcome] at hrun'
  cases htried : (tried σ'.store).1 with
  | ok id =>
    rw [htried] at hrun hrun'
    exact .of_run hrun hrun' ⟨hbranched, fun id hid => hsize ▸ hnew _ id (htried.trans hid)⟩
  | error failure =>
    rw [htried] at hrun hrun'
    obtain ⟨last, lines, hthrown⟩ := Session.thrown_run hpair.left failure
    obtain ⟨last', lines', hthrown'⟩ := Session.thrown_run hpair.right failure
    rw [hpair.store, reported_withKept] at hthrown'
    have hsettle : ∀ {υ υ' : Session} {f : Failure} {s : Store}, thrown failure υ = (f, υ') →
        ((relay (.error failure : Attempt ObjectId) υ).1,
          { (relay (.error failure : Attempt ObjectId) υ).2 with store := s }) = (.error f, { υ' with store := s }) := by
      intro υ υ' f s h
      rw [relay_error_run, h]
    cases failure with
    | unlisted id => exact .of_run hrun hrun' (hpair.budded hsize _)
    | fault fault =>
      exact .of_run (hrun.trans (hsettle hthrown)) (hrun'.trans (hsettle hthrown'))
        ((hbranched.relined last last' lines lines').budded _)
    | misuse m =>
      exact .of_run (hrun.trans (hsettle hthrown)) (hrun'.trans (hsettle hthrown'))
        ((hbranched.relined last last' lines lines').budded _)

/-- Building after work that leaves objects as they are. -/
theorem Steady.then_alike {f : α → SessionM ObjectId} (hx : Steady x) (h : Paired σ τ) (hn : σ.store.Named)
    (hsize : σ.store.size = n)
    (hf : ∀ a {σ' τ' : Session}, Paired σ' τ' → σ'.store.Named → σ'.store.size = n → x σ = (.ok a, σ') →
      Alike (Budded n) (f a) σ' τ') : Alike (Budded n) (x >>= f) σ τ := by
  have hsame : (x σ).2.store.size = n := (hx.still σ).size.trans hsize
  refine (hx.alike h hn).bind (fun failure hpair => hpair.budded hsame failure) fun a hrun hpair => ?_
  exact hf a hpair (hn.same (hx.still σ)) hsame hrun

/-- Building for a variant, once its slot names have been asked for. -/
theorem alike_asked {work : BuildingT (StateM Session) ObjectId} {tried : Building ObjectId} (hwork : work = tried.relay)
    (hblind : Building.Blind tried) (hexpands : ∀ s : Store, s.Expands (tried s).2)
    (hnew : ∀ s id, (tried s).1 = .ok id → s.size ≤ id)
    (hcontained : ∀ s : Store, s.size = n → s.Contained → (tried s).2.Contained) (v : Variant) (input : Input)
    (h : Paired σ τ) (hn : σ.store.Named) (hsize : σ.store.size = n) :
    Alike (Budded n) (askSlotNames v input >>= fun _ => build work) σ τ := by
  refine (steady_askSlotNames v input).then_alike h hn hsize fun _ {σ' τ'} hpair hn hsize _ => ?_
  have halike := alike_build hwork (foresees_blind hblind) hexpands hnew
    (fun s hsame hs => hcontained s (by rw [size, hsame, ← size, hsize]) hs) hpair hn
  rwa [hsize] at halike

theorem alike_createNode {v : Variant} (hv : v.self < σ.store.size) (children : Value) (h : Paired σ τ)
    (hn : σ.store.Named) : Alike (Budded σ.store.size) (createNode v children) σ τ := by
  have hblind := fun input => foresees_blind (blind_create v input)
  have hexpands := fun input s => (builds_create v input s).expands
  have hcontained : ∀ (input : Input) (s : Store), s.size = σ.store.size → s.Contained →
      (Store.create v input s).2.Contained := fun input s hsize hs => hs.create (hsize ▸ hv) input
  have hasked : ∀ input {σ' τ' : Session}, Paired σ' τ' → σ'.store.Named → σ'.store.size = σ.store.size →
      Alike (Budded σ.store.size) (askSlotNames v input >>= fun _ => build (Store.createM v input)) σ' τ' :=
    fun input {_ _} => alike_asked (createM_eq_relay v input) (blind_create v input) (hexpands input)
      (fun _ _ => le_of_create) (hcontained input) v input
  unfold createNode
  split
  · exact alike_build (createM_eq_relay v _) (hblind _) (hexpands _) (fun _ _ => le_of_create)
      (fun s hsame => hcontained _ s (by rw [size, size, hsame])) h hn
  · dsimp only
    split
    · exact (steady_pure _).then_alike h hn rfl fun input {_ _} hpair hn hsize _ => hasked input hpair hn hsize
    · exact (steady_reading fun s k => by rw [Input.ofValue_withKept]).then_alike h hn rfl
        fun input {_ _} hpair hn hsize _ => hasked input hpair hn hsize

/-! ### Source files -/

theorem lt_size_of_variant {s : Store} (hs : s.Contained) {id : ObjectId} {v : Variant}
    (h : s.object? id = some (.variant v)) : v.self < s.size := by
  have hlayout := (hs.holds h).members ("layout", .object (v.self + 1)) (by
    simp only [Object.allMembers, Object.hidden, Object.listed, Variant.members, List.nil_append, List.mem_cons,
      true_or, or_true])
  exact Nat.lt_of_succ_lt hlayout

theorem alike_addFile (grammar : Value) (source : Source) (children : Value) (h : Paired σ τ) (hn : σ.store.Named) :
    Alike (Budded σ.store.size) (addFile grammar source children) σ τ := by
  have hmember : ∀ name, Steady (reading (·.member name grammar)) :=
    fun name => steady_reading fun s k => by rw [member_withKept]
  refine (hmember "sourceFile").then_alike h hn rfl fun variant {_ _} h₁ hn₁ hsize₁ hrun => ?_
  have hvariant : variant.Within σ.store.size := by
    rw [reading_run] at hrun
    exact h.left.contained.member (by decide) (Attempt.ofMisuse_eq_ok (Prod.mk.inj hrun).1)
  refine (hmember "endOfFileKind").then_alike h₁ hn₁ hsize₁ fun kind {_ _} h₂ hn₂ hsize₂ _ => ?_
  refine (steady_reading fun s k => by rw [Input.ofValue_withKept]).then_alike h₂ hn₂ hsize₂
    fun input {σ' τ'} hpair hn' hsize _ => ?_
  refine Alike.get_bind (by rw [hpair.store]; rfl) ?_
  split
  · rename_i v hobject
    have hv : v.self < σ.store.size := by
      obtain ⟨id, -, hid⟩ := Option.bind_eq_some_iff.mp hobject
      exact hsize ▸ lt_size_of_variant hpair.left.contained hid
    exact alike_asked (addFileM_eq_relay v kind source input) (blind_addFileBy ..)
      (fun s => (builds_addFileBy v.plan v [] kind source input s).expands) (fun _ _ => le_of_addFileBy)
      (fun s hs hc => hc.addFile (hs ▸ hv) kind source input) v input hpair hn' hsize
  · have halike := alike_build (addOtherFileM_eq_relay variant kind source input)
      (foresees_addOtherFile variant kind source input) (expands_addOtherFile variant kind source input)
      (fun _ _ => le_of_addOtherFile)
      (fun s hsame hs => hs.addOtherFile (by rwa [size, hsame, ← size, hsize]) kind source input) hpair hn'
    rwa [hsize] at halike

/-- A new object can be changed in both sessions. -/
theorem Branched.assign (h : Branched n σ τ) {id : ObjectId} (hid : n ≤ id) {value : Value}
    (hvalue : value.Within σ.store.size) :
    Alike (fun _ => Branched n) (changing fun s => return ((), ← s.assignTo id "source" value)) σ τ := by
  have hstore := h.paired.store
  have hrun : ∀ υ : Session, changing (fun s => return ((), ← s.assignTo id "source" value)) υ =
      (Attempt.ofMisuse ((υ.store.assignment id "source" value).map fun _ => ()),
        { υ with store := ((υ.store.assignment id "source" value).map υ.store.apply).toOption.getD υ.store }) := by
    intro υ
    rw [changing_run, assignTo]
    cases υ.store.assignment id "source" value <;> rfl
  have hassignment : τ.store.assignment id "source" value = σ.store.assignment id "source" value := by
    rw [hstore, assignment_withKept]
  have hσ := hrun σ
  have hτ := hrun τ
  rw [hassignment] at hτ
  cases hc : σ.store.assignment id "source" value with
  | error m =>
    rw [hc] at hσ hτ
    exact .of_run hσ hτ h
  | ok c =>
    rw [hc] at hσ hτ
    have hassignTo : ∀ {s : Store},
        s.assignment id "source" value = .ok c → s.assignTo id "source" value = .ok (s.apply c) := by
      intro s hs
      rw [assignTo, hs]
      rfl
    have hsize : τ.store.size = σ.store.size := by rw [size, size, h.cells]
    obtain ⟨s, t, hn, hs, hprimed, hgrown, hgrown'⟩ := h.stems
    have ht : t.size = n := by rw [size, cells_of_primed hprimed, ← size, hn]
    exact .of_run hσ hτ
      { left := h.left.keeps (keepsLoggers_assignTo (hassignTo hc)) (h.left.contained.assignTo hvalue (hassignTo hc))
        right := h.right.keeps (keepsLoggers_assignTo (hassignTo (hassignment.trans hc)))
          (h.right.contained.assignTo (hsize.symm ▸ hvalue) (hassignTo (hassignment.trans hc)))
        stems := ⟨s, t, hn, hs, hprimed, hgrown.assign (hn.symm ▸ hid) (assigns_of_assignment hc),
          hgrown'.assign (ht.symm ▸ hid) (assigns_of_assignment (hassignment.trans hc))⟩
        cells := by
          show (τ.store.apply c).cells = (σ.store.apply c).cells
          rw [apply, apply, cells_modify, cells_modify, h.cells]
        format := h.format }

/-- Work that leaves objects as they are, after other work; whatever has a layout need only have a name in the end. -/
theorem Alike.then_steady (hx : Alike R x σ τ) (hpaired : ∀ outcome, R outcome (x σ).2 (x τ).2 → Paired (x σ).2 (x τ).2)
    (hf : ∀ a, Steady (f a)) (hn : ((x >>= f) σ).2.store.Named) : Alike (fun _ => Paired) (x >>= f) σ τ := by
  refine hx.bind (fun _ => hpaired _) fun a hrun h => (hf a).alike (hpaired _ h) ?_
  rw [bind_ok hrun] at hn
  exact hn.same ((hf a).still _).symm

theorem alike_createSourceFile (grammar : Value) {source : Value} (children : Value)
    (hsource : source.Within σ.store.size) (h : Paired σ τ) (hn : σ.store.Named)
    (hn' : (createSourceFile grammar source children σ).2.store.Named) :
    Alike (fun _ => Paired) (createSourceFile grammar source children) σ τ := by
  have hrest : ∀ root, Steady (recordRoots root >>= fun _ => pure root) :=
    fun root => (steady_recordRoots root).bind fun _ => steady_pure root
  have hother : (∀ t, source ≠ .text t) → createSourceFile grammar source children = (do
      let root ← addFile grammar .empty children
      changing fun s => return ((), ← s.assignTo root "source" source)
      return root) >>= fun root => recordRoots root >>= fun _ => pure root := by
    intro hno
    cases source with
    | text t => exact absurd rfl (hno t)
    | _ => simp only [createSourceFile, bind_assoc]
  by_cases htext : ∃ t, source = .text t
  · obtain ⟨t, rfl⟩ := htext
    cases hof : Source.ofText? t with
    | none =>
      have heq : createSourceFile grammar (.text t) children = throw (.misuse .tooLong) := by
        rw [createSourceFile, hof]
        rfl
      rw [heq]
      exact (steady_throw _).alike h hn
    | some source =>
      have heq : createSourceFile grammar (.text t) children =
          addFile grammar source children >>= fun root => recordRoots root >>= fun _ => pure root := by
        rw [createSourceFile, hof]
      rw [heq] at hn' ⊢
      exact (alike_addFile grammar source children h hn).then_steady (fun _ hbudded => hbudded.1.paired) hrest hn'
  · rw [hother fun t ht => htext ⟨t, ht⟩] at hn' ⊢
    refine Alike.then_steady (R := fun _ => Branched σ.store.size) ?_ (fun _ hbranched => hbranched.paired) hrest hn'
    refine (alike_addFile grammar .empty children h hn).bind (fun _ hbudded => hbudded.1) fun root _ hbudded => ?_
    obtain ⟨s, t, hsize, -, -, hgrown, -⟩ := hbudded.1.stems
    have hle : σ.store.size ≤ (addFile grammar .empty children σ).2.store.size := hsize ▸ hgrown.size_le
    exact (hbudded.1.assign (hbudded.2 root rfl) (hsource.mono hle)).bind (fun _ => id) fun _ _ hbranched =>
      .of_run rfl rfl hbranched

/-! ### Grammars and registries -/

/-- Objects that are added to both stores. -/
theorem Paired.expanded (h : Paired σ τ) {s t : Store} (hσ : σ.store.Expands s) (hτ : τ.store.Expands t)
    (hs : s.Contained) (hcells : t.cells = s.cells) : Paired { σ with store := s } { τ with store := t } where
  left := h.left.keeps (fun _ _ hlogger => hlogger.expands hσ) hs
  right := h.right.keeps (fun _ _ hlogger => hlogger.expands hτ) (hs.of_cells hcells)
  primed := h.left.contained.primed_expands h.primed hσ hτ hcells
  format := h.format

theorem alike_allocate {o : Object} (ho : o.HoldsWithin (σ.store.size + 1)) (h : Paired σ τ) :
    Alike (fun _ => Paired) (allocate o) σ τ := by
  have hrun : ∀ υ : Session, allocate o υ = (.ok υ.store.size, { υ with store := (υ.store.add o).2 }) := fun _ => rfl
  have hsize : τ.store.size = σ.store.size := by rw [size, size, h.cells]
  refine .of_run (hrun σ) ((hrun τ).trans (by rw [hsize])) (h.expanded (Expands.add (.refl _) o)
    (Expands.add (.refl _) o) (h.left.contained.add ho) ?_)
  show τ.store.cells.push _ = σ.store.cells.push _
  rw [h.cells]

theorem alike_addRegistry {make : Store → Attempt Registry} (hmake : ∀ s k, make (s.withKept k) = make s)
    (h : Paired σ τ) : Alike (fun _ => Paired) (addRegistry make) σ τ := by
  refine .get_bind (by rw [h.store, hmake]) ?_
  cases make σ.store with
  | error failure => exact .of_run rfl rfl h
  | ok r =>
    have halike := alike_allocate (o := .registry r) (.registry r) h
    exact .of_eq (y := allocate (.registry r) >>= fun id => pure (id, r)) rfl rfl
      (halike.bind (fun _ => id) fun id _ hpair => .of_run rfl rfl hpair)

section Grammars

variable {d : Definition} {g : Grammar}

theorem addGrammar_of_define {s : Store} (h : Grammar.define s s.size d = .ok g) :
    s.addGrammar d = .ok (g, s.addAll g.objects) := by
  rw [Store.addGrammar, h]
  rfl

theorem addGrammar_refused {failure : Failure} (h : Grammar.define σ.store σ.store.size d = .error failure) :
    addGrammar d σ = (.error failure, σ) := by
  have hattempt : attempt (σ.store.addGrammar d) σ = (.error failure, σ) := by
    rw [Store.addGrammar, h]
    rfl
  rw [addGrammar, bind_ok (get_run σ), bind_error hattempt]

theorem addGrammar_run (hσ : InOrder σ) (h : Grammar.define σ.store σ.store.size d = .ok g) :
    ∃ last lines, addGrammar d σ = (.ok g, { σ.relined last lines with store := σ.store.addAll g.objects }) := by
  obtain ⟨own, hown⟩ := hσ.grammar
  let extra : Members Data := [("nodeKinds", .leaf (.ofNat g.nodeKinds.size)),
    ("tokenKinds", .leaf (.ofNat g.tokenKinds.size))]
  have hextra : ∀ entry ∈ extra, entry.2.Showable σ.store := by
    intro entry hentry
    rcases List.mem_pair.mp hentry with rfl | rfl
    · exact .inr ⟨_, rfl⟩
    · exact .inr ⟨_, rfl⟩
  obtain ⟨last, lines, hwrite⟩ := announce_run hσ hown .info "Defined" hextra
  have hattempt : attempt (σ.store.addGrammar d) σ = (.ok (g, σ.store.addAll g.objects), σ) := by
    rw [addGrammar_of_define h]
    rfl
  refine ⟨last, lines, ?_⟩
  rw [addGrammar, bind_ok (get_run σ), bind_ok hattempt]
  dsimp only
  rw [bind_ok hwrite]
  rfl

theorem alike_addGrammar (hd : d.Within σ.store.size) (h : Paired σ τ) :
    Alike (fun _ => Paired) (addGrammar d) σ τ := by
  have hsize : τ.store.size = σ.store.size := by rw [size, size, h.cells]
  have hdefine : Grammar.define τ.store τ.store.size d = Grammar.define σ.store σ.store.size d := by
    rw [hsize, h.store, Grammar.define_withKept]
  cases hg : Grammar.define σ.store σ.store.size d with
  | error failure => exact .of_run (addGrammar_refused hg) (addGrammar_refused (hdefine.trans hg)) h
  | ok g =>
    obtain ⟨last, lines, hσ⟩ := addGrammar_run h.left hg
    obtain ⟨last', lines', hτ⟩ := addGrammar_run h.right (hdefine.trans hg)
    refine .of_run hσ hτ ((h.relined last last' lines lines').expanded (expands_addAll _ _) (expands_addAll _ _)
      (h.left.contained.addGrammar hd (addGrammar_of_define hg)) ?_)
    show τ.store.cells ++ _ = σ.store.cells ++ _
    rw [h.cells]

end Grammars

/-- A grammar that is read first. -/
theorem alike_readGrammar {read : Store → Attempt Definition} (hread : ∀ s k, read (s.withKept k) = read s)
    (hwithin : ∀ {s : Store} {d}, s.Contained → read s = .ok d → d.Within s.size) (h : Paired σ τ) :
    Alike (fun _ => Paired) (do addGrammar (← attempt (read (← get).store))) σ τ := by
  refine .get_bind (by rw [h.store, hread]) ?_
  cases hd : read σ.store with
  | error failure => exact .of_run rfl rfl h
  | ok d => exact .of_eq (y := addGrammar d) rfl rfl (alike_addGrammar (hwithin h.left.contained hd) h)

end Session

/-! ## Operations -/

open Session Store

/-- A predicate that goes neither by what is kept beside objects nor by slots that have to be listed first. -/
structure Impartial (p : Store → Predicate) : Prop where
  same : ∀ s k, p (s.withKept k) = p s
  listed : ∀ s id, (p s id).Listed

theorem Impartial.foresees {predicate : Option (Store → Predicate)} (h : ∀ p ∈ predicate, Impartial p) (w : Walk)
    (s : Store) : s.Foresees Pull.failure? (w.next s (predicate.map (· s)))
      (w.next s.primed (predicate.map (· s.primed))) := by
  cases predicate with
  | none => exact Walk.foresees_next (fun _ hp => by cases hp) w
  | some p =>
    have hp := h p rfl
    rw [Option.map_some, Option.map_some, hp.same]
    refine Walk.foresees_next (fun q hq id => ?_) w
    cases hq
    exact hp.listed s id

/-- What an operation on trees is given is there. -/
def TreeOperation.Given (s : Store) : {α : Type} → TreeOperation α → Prop
  | _, .create variant _ => variant.self < s.size
  | _, .createSourceFile _ source _ => source.Within s.size
  | _, .pull predicate _ => ∀ p ∈ predicate, Impartial p
  | _, _ => True

/-- What an operation is given is there. -/
def Operation.Given (s : Store) : {α : Type} → Operation α → Prop
  | _, .tree operation => operation.Given s
  | _, .make o => o.HoldsWithin (s.size + 1)
  | _, _ => True

variable {α : Type} {σ τ : Session}

theorem TreeOperation.alike (op : TreeOperation α) (h : Paired σ τ) (hgiven : op.Given σ.store) (hn : σ.store.Named)
    (hn' : (op.perform σ).2.store.Named) : Alike (fun _ => Paired) op.perform σ τ := by
  cases op with
  | create variant children =>
    obtain ⟨houtcome, hbudded⟩ := alike_createNode hgiven children h hn
    exact ⟨houtcome, hbudded.1.paired⟩
  | createSourceFile grammar source children => exact alike_createSourceFile grammar children hgiven h hn hn'
  | isNode v => exact (steady_get_store (·.namesNode v) fun s k => by rw [namesNode_withKept]).alike h hn
  | isSourceFile v =>
    exact (steady_get_store (·.namesSourceFile v) fun s k => by rw [namesSourceFile_withKept]).alike h hn
  | isElement v => exact (steady_get_store (·.isElement v) fun s k => by rw [isElement_withKept]).alike h hn
  | parent v => exact (steady_get_store (v.object?.bind ·.parent?) fun s k => rfl).alike h hn
  | ancestor v kind => exact (steady_get_store (·.ancestor? v kind) fun s k => by rw [ancestor?_withKept]).alike h hn
  | kindName v => exact (steady_reading fun s k => by rw [kindName_withKept]).alike h hn
  | root v =>
    exact (steady_observe_listed (root_eq_relay · v) (fun s k => by rw [root_withKept])
      fun s => listed_root v).alike h hn
  | child v slot =>
    exact (steady_observe_listed (child_eq_relay · v slot) (fun s k => by rw [child_withKept])
      fun s => listed_child v slot).alike h hn
  | list v slot =>
    exact (steady_observe_listed (list_eq_relay · v slot) (fun s k => by rw [list_withKept])
      fun s => listed_list v slot).alike h hn
  | entries v => exact (steady_observe (contents_eq_relay · v) fun s => matches_contents v).alike h hn
  | walkChildren accept v =>
    exact (steady_observe (fun s => Walk.children_eq_relay accept v) fun s => Walk.matches_children accept v).alike h hn
  | walkDescendants accept v =>
    exact (steady_observe (fun s => Walk.descendants_eq_relay accept v)
      fun s => Walk.matches_descendants accept v).alike h hn
  | pull predicate w => exact (steady_pull (Impartial.foresees hgiven w)).alike h hn
  | fullStart v => exact (steady_observe (fullStart_eq_relay · v) fun s => matches_fullStart v).alike h hn
  | start v => exact (steady_observe (start_eq_relay · v) fun s => matches_start v).alike h hn
  | width v => exact (steady_observe (width_eq_relay · v) fun s => matches_width v).alike h hn
  | fullWidth v => exact (steady_observe (fullWidth_eq_relay · v) fun s => matches_fullWidth v).alike h hn
  | stop v => exact (steady_observe (stop_eq_relay · v) fun s => matches_stop v).alike h hn
  | endPosition v => exact (steady_observe (endPosition_eq_relay · v) fun s => matches_endPosition v).alike h hn
  | firstToken v => exact (steady_observe (firstToken_eq_relay · v) fun s => matches_firstToken v).alike h hn
  | text v => exact (steady_observe (nodeText_eq_relay · v) fun s => matches_nodeText v).alike h hn
  | fullText v => exact (steady_observe (fullText_eq_relay · v) fun s => matches_fullText v).alike h hn
  | leadingTrivia v => exact (steady_observe (leadingTrivia_eq_relay · v) fun s => matches_leadingTrivia v).alike h hn
  | nodeAt v offset =>
    exact (steady_observe (nodeAt_eq_relay · v offset) fun s => matches_nodeAt v offset).alike h hn
  | tokenAt v offset =>
    exact (steady_observe (tokenAt_eq_relay · v offset) fun s => matches_tokenAt v offset).alike h hn
  | positionAt file offset => exact (steady_positionAt file offset).alike h hn
  | offsetAt file line character => exact (steady_offsetAt file line character).alike h hn
  | nodeAtPosition file line character =>
    exact ((steady_offsetAt file line character).bind fun offset =>
      steady_observe (nodeAt_eq_relay · file offset) fun s => matches_nodeAt file offset).alike h hn
  | range v => exact (steady_rangeFrom (start_eq_relay · v) fun s => matches_start v).alike h hn
  | fullRange v => exact (steady_rangeFrom (fullStart_eq_relay · v) fun s => matches_fullStart v).alike h hn

theorem Operation.alike (op : Operation α) (h : Paired σ τ) (hgiven : op.Given σ.store) (hn : σ.store.Named)
    (hn' : (op.perform σ).2.store.Named) : Alike (fun _ => Paired) op.perform σ τ := by
  cases op with
  | tree op => exact op.alike h hgiven hn hn'
  | make o => exact alike_allocate hgiven h
  | kindsOfList names => exact alike_addRegistry (fun s k => by rw [Registry.ofList_withKept]) h
  | kindsOfTable table => exact alike_addRegistry (fun s k => by rw [Registry.ofTable_withKept]) h
  | nameOf kinds id =>
    exact ((steady_reading fun s k => by rw [registryFor_withKept]).bind fun _ => steady_pure _).alike h hn
  | idOf kinds name =>
    exact ((steady_reading fun s k => by rw [registryFor_withKept]).bind fun _ => steady_pure _).alike h hn
  | kindEntries kinds =>
    exact ((steady_reading fun s k => by rw [registryFor_withKept]).bind fun _ => steady_pure _).alike h hn
  | defineGrammar definition =>
    exact alike_readGrammar (fun s k => by rw [Definition.readTrusting_withKept]) (fun hs => hs.readTrusting) h
  | loadGrammar definition =>
    exact alike_readGrammar (fun s k => by rw [Definition.ofValue_withKept]) (fun _ => within_ofValue) h
  | variant grammar name =>
    exact ((steady_reading fun s k => by rw [grammarFor_withKept]).bind fun _ => steady_attempt _).alike h hn
  | variantOf grammar kind =>
    have hgrammar : Steady (reading (·.grammarFor grammar "variantOf")) :=
      steady_reading fun s k => by rw [grammarFor_withKept]
    exact (hgrammar.bind fun g => steady_get_bind (f := fun s => attempt (g.variantOf s kind))
      (fun s k => by rw [Grammar.variantOf_withKept]) fun _ => steady_attempt _).alike h hn
  | variants grammar =>
    exact ((steady_reading fun s k => by rw [grammarFor_withKept]).bind fun _ => steady_pure _).alike h hn
  | tokenKind grammar name =>
    exact ((steady_reading fun s k => by rw [grammarFor_withKept]).bind fun _ => steady_attempt _).alike h hn
  | slotNames v => exact (steady_slotNames v).alike h hn
  | arity v slot => exact (steady_pure _).alike h hn
  | render grammar v options =>
    exact ((steady_tokenFormat options).bind fun format =>
      steady_observe (render_eq_relay · v grammar format) fun s => matches_render grammar format v).alike h hn
  | renderJson grammar v options =>
    exact ((steady_tokenFormat options).bind fun format =>
      steady_observe (renderJson_eq_relay · v grammar format) fun s => matches_renderJson grammar format v).alike h hn

/-! ## Clients -/

/-- What a client is given by an operation, and the objects and their links after it. -/
structure Answer : Type 1 where
  {α : Type}
  outcome : Except Failure α
  cells : Array Cell

namespace Client

/-- What a client is given in a session, by one operation after the other. -/
def run : Client → Session → List Answer
  | .done, _ => []
  | .call op next, σ =>
    ⟨(op.perform σ).1, (op.perform σ).2.store.cells⟩ :: (next (op.perform σ).1).run (op.perform σ).2

/-- A client hands over only what is there, and leaves to whatever has a layout a name that can be shown. -/
def Careful : Client → Session → Prop
  | .done, σ => σ.store.Named
  | .call op next, σ => σ.store.Named ∧ op.Given σ.store ∧ (next (op.perform σ).1).Careful (op.perform σ).2

theorem Careful.named {c : Client} (h : c.Careful σ) : σ.store.Named := by
  cases c with
  | done => exact h
  | call op next => exact h.1

/-- A client is given the same in both sessions of a pair, and finds the same objects and links. -/
theorem run_eq {c : Client} (h : Paired σ τ) (hc : c.Careful σ) : c.run τ = c.run σ := by
  induction c generalizing σ τ with
  | done => rfl
  | call op next ih =>
    obtain ⟨hn, hgiven, hnext⟩ := hc
    obtain ⟨houtcome, hpair⟩ := op.alike h hgiven hn hnext.named
    rw [run, run, houtcome, hpair.cells, ih _ hpair hnext]

end Client

/-! ## Two sessions -/

namespace Sample

/-- A kind of node with one slot. -/
def twig : Variant := { self := 29, kind := 9, name := "Twig", layout := [("word", Layout.one)], isSourceFile := false }

/-- A new session with a variant whose slots have not been listed. -/
def fresh : Session := { Session.start 0 with
  store := (Session.start 0).store.addAll [.variant twig, .ofMembers twig.layout] }

/-- The same at another level and instant, with one more tag of the logger for trees, and with the slots listed. -/
def seasoned : Session where
  store := (keepSlotNames fresh.store 29 ["word"]).keep 28
    ({ · with tags := { members := LogLine.ofTexts [("service", "tree"), ("run", "2")] } })
  journal := { fresh.journal with threshold := .level .debug, now := 7, last := 3 }
  settings := { logLevel := .debug }

/-- Asks for the slots of the variant, makes a node without children, and asks where it begins. -/
def asker : Client :=
  .call (.slotNames twig) fun _ => .call (.tree (.create twig .undefined)) fun made =>
    .call (.tree (.start (made.toOption.elim .null .object))) fun _ => .done

theorem inOrder_fresh : InOrder fresh :=
  inOrder_addAll rfl _ (contained_of_cells (by decide +kernel) (by decide +kernel))

theorem paired_seasoned : Paired fresh seasoned := by
  have hunlisted : fresh.store.Unlisted 29 := ⟨by decide +kernel, by decide +kernel, by decide +kernel⟩
  have hkeeps := keepsLoggers_keepSlotNames fresh.store 29 ["word"]
  refine ⟨inOrder_fresh, ⟨⟨_, rfl⟩, ⟨_, rfl⟩, ?_, ?_, ?_, inOrder_fresh.contained.of_cells rfl⟩, ?_, rfl⟩
  · exact inOrder_fresh.grammar.imp fun _ h => (hkeeps h).keep fun heq => absurd heq (by decide +kernel)
  · exact inOrder_fresh.schema.imp fun _ h => (hkeeps h).keep fun heq => absurd heq (by decide +kernel)
  · obtain ⟨own, h⟩ := inOrder_fresh.tree
    have htree : treeLogger = .object 28 := by decide +kernel
    rw [htree] at h ⊢
    exact ⟨_, (hkeeps h).retag _⟩
  · exact (primed_keepTags ..).trans (primed_keepSlotNames hunlisted (by decide +kernel))

theorem careful_asker : asker.Careful fresh := by
  have hfresh : fresh.store.Named := named_of_texts (by decide +kernel)
  have hmade : ((TreeOperation.create twig .undefined).perform (slotNames twig fresh).2).2.store.Named :=
    named_of_texts (by decide +kernel)
  have hself : twig.self < (slotNames twig fresh).2.store.size := by decide +kernel
  exact ⟨hfresh, trivial, hfresh.same ((steady_slotNames twig).still _), hself, hmade, trivial,
    hmade.same ((intact_observe (start_eq_relay · _)).still _)⟩

/-- The second session has a variant listed, writes more lines at another level, and shows another tag on them. -/
theorem run_eq_seasoned : Paired fresh seasoned ∧ asker.Careful fresh ∧ asker.run seasoned = asker.run fresh :=
  ⟨paired_seasoned, careful_asker, Client.run_eq paired_seasoned careful_asker⟩

/-! ### What was asked for before -/

/-- A record that is read as a node of a variant with a layout of one slot, one that is read as a source file, and one
that is read as a node of a variant whose name has neither a text nor a JSON. -/
def stale : Session := { Session.start 0 with
  store := (Session.start 0).store.addAll [.ofMembers [("a", Layout.one)],
    .ofMembers [("name", .text "Leaf"), ("layout", .object 29)], .ofMembers [],
    .ofMembers [("variant", .object 30), ("children", .object 31)],
    .ofMembers [("variant", .object 30), ("source", .text "a\nb")],
    .ofMembers [("x", .bigint 1), ("toString", .null), ("valueOf", .null)],
    .ofMembers [("name", .object 34), ("layout", .object 31)],
    .ofMembers [("variant", .object 35), ("children", .object 31)]] }

/-- Declares one more slot in the layout, and gives the source file another source. -/
def edit : SessionM Unit := do
  changing fun s => return ((), ← s.assignTo 29 "b" Layout.one)
  changing fun s => return ((), ← s.assignTo 33 "source" (.text "abc"))

/-- After the changes. -/
def edited : Session := (edit stale).2

/-- After the changes, where slots and a position were asked for before them. -/
def askedBefore : Session :=
  (edit (Session.positionAt (.object 33) (.number 2) (observe (·.contents (.object 32)) stale).2).2).2

/-- At the level for all lines. -/
def talkative : Session := { edited with journal := { edited.journal with threshold := .level .debug } }

/-- What was asked for before a change is given again after it, and a name that cannot be shown is in the way at the
level for all lines alone. -/
theorem not_indifferent :
    (askedBefore.store.cells = edited.store.cells ∧
      ((TreeOperation.entries (.object 32)).perform askedBefore).1 = .ok [("a", .null)] ∧
      ((TreeOperation.entries (.object 32)).perform edited).1 = .ok [("a", .null), ("b", .null)] ∧
      ((TreeOperation.positionAt (.object 33) (.number 2)).perform askedBefore).1 = .ok ⟨1, 0⟩ ∧
      ((TreeOperation.positionAt (.object 33) (.number 2)).perform edited).1 = .ok ⟨0, 2⟩) ∧
    talkative.store = edited.store ∧
      ((TreeOperation.entries (.object 36)).perform talkative).1 = .error (.misuse .noText) ∧
      ((TreeOperation.entries (.object 36)).perform edited).1 = .ok [] :=
  ⟨by decide +kernel, rfl, by decide +kernel⟩

end Sample

end LosslessSyntax
