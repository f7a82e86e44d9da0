import LosslessSyntax.Proofs.Besides
import LosslessSyntax.Proofs.Constructing
import LosslessSyntax.Proofs.Documents
import LosslessSyntax.Proofs.Journals
import LosslessSyntax.Proofs.Operations

/-!
# Reports of faults

Every fault of a tree is reported once, when it is built, and thrown then. `Session.Reporting` says so of any work in a
session in which the loggers of the library are in order: it writes no line of the level for errors, unless it fails by a
fault of a tree, and then such a line is the last one and reports that fault. What is read, built and pulled in a session
is relayed (`Store.fullStart_eq_relay` and the like), so that it is work of this sort; work that is put together of such
work is of the same sort, and so is every operation on trees.
-/

namespace LosslessSyntax

/-- The kind name of the node at which a broken tree shows. -/
def TreeFault.kind : TreeFault → Value
  | .malformed _ kind => kind
  | .detached kind => kind

/-- A fault that names a kind by a text has a JSON. -/
theorem TreeFault.jsonText_of_text (s : Store) {fault : TreeFault} {kind : Text} (h : fault.kind = .text kind) :
    ∃ json, (Report.namedRecord fault.errorClass.name fault.payload).jsonText s .compact = .ok json := by
  cases fault with
  | malformed cause k =>
    cases h
    exact ⟨_, rfl⟩
  | detached k =>
    cases h
    exact ⟨_, rfl⟩

/-- The JSON of a record is some text. -/
theorem Data.exists_of_jsonText {s : Store} {members : Members Data} {style : Json.Style} {json : Option Text}
    (h : (Data.record members).jsonText s style = .ok json) : ∃ text, json = some text := by
  obtain ⟨json, hjson, h⟩ := Attempt.bind_eq_ok h
  obtain ⟨members, _, hjson⟩ := Attempt.bind_eq_ok hjson
  cases hjson
  cases h
  exact ⟨_, rfl⟩

/-- What a line shows of a fault: the JSON of its name and payload. There is no such JSON at most where a kind is no text;
then the name is shown, and the members of the payload one by one. -/
inductive TreeFault.ShownAs (s : Store) (fault : TreeFault) (error : Text) : Prop
  | json (h : (Report.namedRecord fault.errorClass.name fault.payload).jsonText s .compact = .ok (some error))
  | pairs {m : Misuse} {shown : Text}
      (hjson : (Report.namedRecord fault.errorClass.name fault.payload).jsonText s .compact = .error m)
      (hkind : ∀ kind, fault.kind ≠ .text kind) (hshown : LogLine.payloadText s fault.payload = .ok shown)
      (h : error = fault.errorClass.name ++ ": " ++ shown)

theorem TreeFault.ShownAs.withKept {s : Store} {k : ObjectId → Kept} {fault : TreeFault} {error : Text}
    (h : fault.ShownAs (s.withKept k) error) : fault.ShownAs s error := by
  cases h with
  | json h => exact .json (by rwa [Data.jsonText_withKept] at h)
  | pairs hjson hkind hshown h =>
    rw [Data.jsonText_withKept] at hjson
    rw [LogLine.payloadText_withKept] at hshown
    exact .pairs hjson hkind hshown h

theorem TreeFault.shownAs_of_namedErrorText {s : Store} {fault : TreeFault} {error : Text}
    (h : LogLine.namedErrorText s (Fault.tree fault).name (Fault.tree fault).payload = .ok error) :
    fault.ShownAs s error := by
  change LogLine.namedErrorText s fault.errorClass.name fault.payload = .ok error at h
  rw [LogLine.namedErrorText] at h
  cases hjson : (Report.namedRecord fault.errorClass.name fault.payload).jsonText s .compact with
  | ok json =>
    obtain ⟨text, rfl⟩ := Data.exists_of_jsonText hjson
    rw [hjson] at h
    cases h
    exact .json hjson
  | error m =>
    rw [hjson] at h
    obtain ⟨shown, hshown, h⟩ := Attempt.bind_eq_ok h
    cases h
    refine .pairs hjson (fun kind hkind => ?_) hshown rfl
    obtain ⟨json, hok⟩ := TreeFault.jsonText_of_text s hkind
    rw [hok] at hjson
    cases hjson

namespace Store

theorem cells_document {s t : Store} {file : Value} {d : Document} (h : s.document file = .ok (d, t)) :
    t.cells = s.cells := by
  unfold document at h
  split at h
  · split at h
    · cases h
      rfl
    · obtain ⟨kind, -, h⟩ := Attempt.bind_eq_ok h
      obtain ⟨text, -, h⟩ := Attempt.bind_eq_ok h
      cases h
      rfl
  · obtain ⟨kind, -, h⟩ := Attempt.bind_eq_ok h
    cases h

theorem cells_noteLines (s : Store) (file : Value) : (s.noteLines file).cells = s.cells := by
  unfold noteLines
  split
  · split
    · split <;> rfl
    · rfl
  · rfl

end Store

namespace Session

variable {α β : Type} {tags : Members Text} {σ τ : Session} {x work : SessionM α} {f : α → SessionM β}

/-! ## Sessions that can report -/

/-- A session with a level in force, in which the loggers for layouts and for trees have their operations and nothing
but texts for tags. -/
structure Ready (tags : Members Text) (σ : Session) : Prop where
  level : ∃ l, σ.journal.threshold = .level l
  schema : ∃ own, σ.store.HasLogger schemaLogger own
  tree : σ.store.HasLogger treeLogger tags

/-- Lines none of which is of the level for errors. -/
def Quiet (lines : List Text) : Prop := ∀ line ∈ lines, LogLine.isError line = false

/-- A line by the logger for trees that reports a fault: it shows the tags of the logger and, as the error, the fault. -/
def IsReport (s : Store) (tags : Members Text) (fault : TreeFault) (line : Text) : Prop :=
  ∃ timestamp elapsed error,
    line = LogLine.compose .error timestamp elapsed (LogLine.fieldsText (tags.set "error" error))
      (some (faultMessage fault)) ∧ fault.ShownAs s error

theorem IsReport.isError {s : Store} {fault : TreeFault} {line : Text} (h : IsReport s tags fault line) :
    LogLine.isError line = true := by
  obtain ⟨timestamp, elapsed, error, rfl, -⟩ := h
  rw [LogLine.isError_compose]
  rfl

/-- What was written with a failure, if there was one: no line for errors, but for the last one if it is a fault of a
tree. -/
structure Tells (s : Store) (tags : Members Text) (failure? : Option Failure) (lines : List Text) : Prop where
  fault : ∀ fault, failure? = some (.ofTree fault) →
    ∃ front line, lines = front ++ [line] ∧ Quiet front ∧ IsReport s tags fault line
  quiet : (∀ fault, failure? ≠ some (.ofTree fault)) → Quiet lines

/-- Work after which a session can still report, and which has told by what it failed, with the objects as they were
before it. -/
def ReportingBy (failure? : Attempt α → Option Failure) (tags : Members Text) (work : SessionM α) : Prop :=
  ∀ σ, Ready tags σ → Ready tags (work σ).2 ∧
    ∃ added, (work σ).2.journal.lines.toList = σ.journal.lines.toList ++ added ∧
      Tells σ.store tags (failure? (work σ).1) added

/-- Work that has told by what it failed. -/
abbrev Reporting (tags : Members Text) (work : SessionM α) : Prop := ReportingBy Attempt.failure? tags work

/-- Work that moreover never fails by a fault of a tree, so that it writes nothing of the level for errors. -/
structure Calm (tags : Members Text) (work : SessionM α) : Prop where
  reporting : Reporting tags work
  noFault : ∀ σ fault, (work σ).1 ≠ .error (.ofTree fault)

/-- Work that changes neither objects nor links. -/
def Intact (work : SessionM α) : Prop := ∀ σ : Session, (work σ).2.store.cells = σ.store.cells

/-- Work that is calm, whatever the tags are, and changes neither objects nor links. -/
structure Gentle (work : SessionM α) : Prop where
  calm : ∀ {tags : Members Text}, Calm tags work
  intact : Intact work

/-! ## Putting work together -/

theorem quiet_nil : Quiet [] := fun _ hline => by cases hline

theorem Quiet.append {front back : List Text} (h : Quiet front) (h' : Quiet back) : Quiet (front ++ back) :=
  fun line hline => (List.mem_append.mp hline).elim (h line) (h' line)

theorem Quiet.tells {s : Store} {failure? : Option Failure} {lines : List Text} (h : Quiet lines)
    (hno : ∀ fault, failure? ≠ some (.ofTree fault)) : Tells s tags failure? lines :=
  ⟨fun fault hfault => absurd hfault (hno fault), fun _ => h⟩

/-- Quiet lines come first. -/
theorem Tells.prepend {s : Store} {failure? : Option Failure} {front lines : List Text}
    (h : Tells s tags failure? lines) (hfront : Quiet front) : Tells s tags failure? (front ++ lines) where
  fault fault hfault := by
    obtain ⟨before, line, rfl, hbefore, hreport⟩ := h.fault fault hfault
    exact ⟨front ++ before, line, (List.append_assoc ..).symm, hfront.append hbefore, hreport⟩
  quiet hno := hfront.append (h.quiet hno)

/-- It does not matter what is kept beside objects. -/
theorem Tells.of_cells {s t : Store} {failure? : Option Failure} {lines : List Text} (h : Tells t tags failure? lines)
    (hcells : t.cells = s.cells) : Tells s tags failure? lines where
  fault fault hfault := by
    obtain ⟨front, line, hlines, hfront, timestamp, elapsed, error, hline, hshown⟩ := h.fault fault hfault
    rw [Store.eq_withKept hcells] at hshown
    exact ⟨front, line, hlines, hfront, timestamp, elapsed, error, hline, hshown.withKept⟩
  quiet := h.quiet

/-- Work after other work, in whose session it tells as in the session before both. -/
theorem Reporting.bind_of (hx : Reporting tags x)
    (hf : ∀ σ a τ, x σ = (.ok a, τ) → Ready tags τ → Ready tags (f a τ).2 ∧
      ∃ added, (f a τ).2.journal.lines.toList = τ.journal.lines.toList ++ added ∧
        Tells σ.store tags (Attempt.failure? (f a τ).1) added) : Reporting tags (x >>= f) := by
  intro σ hσ
  obtain ⟨hready, added, hlines, htells⟩ := hx σ hσ
  rcases hrun : x σ with ⟨outcome, τ⟩
  rw [hrun] at hready hlines htells
  cases outcome with
  | error failure =>
    rw [bind_error hrun]
    exact ⟨hready, added, hlines, htells⟩
  | ok a =>
    rw [bind_ok hrun]
    have hquiet : Quiet added := htells.quiet fun _ h => by cases h
    obtain ⟨hready', added', hlines', htells'⟩ := hf σ a τ hrun hready
    exact ⟨hready', added ++ added', by rw [hlines', hlines, List.append_assoc], htells'.prepend hquiet⟩

theorem Reporting.bind (hx : Reporting tags x) (hintact : Intact x) (hf : ∀ a, Reporting tags (f a)) :
    Reporting tags (x >>= f) := by
  refine hx.bind_of fun σ a τ hrun hready => ?_
  obtain ⟨hready', added, hlines, htells⟩ := hf a τ hready
  have hcells := hintact σ
  rw [hrun] at hcells
  exact ⟨hready', added, hlines, htells.of_cells hcells⟩

/-- Calm work can follow whatever objects were changed. -/
theorem Reporting.bind_calm (hx : Reporting tags x) (hf : ∀ σ a τ, x σ = (.ok a, τ) → Calm tags (f a)) :
    Reporting tags (x >>= f) := by
  refine hx.bind_of fun σ a τ hrun hready => ?_
  have hcalm := hf σ a τ hrun
  obtain ⟨hready', added, hlines, htells⟩ := hcalm.reporting τ hready
  have hno : ∀ fault, Attempt.failure? (f a τ).1 ≠ some (.ofTree fault) := fun fault h =>
    hcalm.noFault τ fault (Attempt.eq_error_of_failure? h)
  exact ⟨hready', added, hlines, (htells.quiet hno).tells hno⟩

namespace Calm

/-- Work that writes no lines. -/
theorem of_silent (hno : ∀ σ fault, (work σ).1 ≠ .error (.ofTree fault))
    (h : ∀ σ, Ready tags σ → Ready tags (work σ).2 ∧ (work σ).2.journal = σ.journal) : Calm tags work := by
  refine ⟨fun σ hσ => ?_, hno⟩
  obtain ⟨hready, hjournal⟩ := h σ hσ
  exact ⟨hready, [], by rw [hjournal, List.append_nil],
    quiet_nil.tells fun fault h => hno σ fault (Attempt.eq_error_of_failure? h)⟩

theorem bind_of (hx : Calm tags x) (hf : ∀ σ a τ, x σ = (.ok a, τ) → Calm tags (f a)) : Calm tags (x >>= f) := by
  refine ⟨hx.reporting.bind_calm hf, fun σ fault => ?_⟩
  rcases hrun : x σ with ⟨outcome, τ⟩
  cases outcome with
  | error failure =>
    have hno := hx.noFault σ fault
    rw [hrun] at hno
    rw [bind_error hrun]
    exact fun h => hno (by cases h; rfl)
  | ok a =>
    rw [bind_ok hrun]
    exact (hf σ a τ hrun).noFault τ fault

theorem bind (hx : Calm tags x) (hf : ∀ a, Calm tags (f a)) : Calm tags (x >>= f) := hx.bind_of fun _ a _ _ => hf a

theorem pure (a : α) : Calm tags (Pure.pure a : SessionM α) :=
  of_silent (fun _ _ h => by cases h) fun _ hσ => ⟨hσ, rfl⟩

theorem get : Calm tags (MonadState.get : SessionM Session) :=
  of_silent (fun _ _ h => by cases h) fun _ hσ => ⟨hσ, rfl⟩

theorem throw {failure : Failure} (h : ∀ fault, failure ≠ .ofTree fault) :
    Calm tags (MonadExcept.throw failure : SessionM α) :=
  of_silent (fun _ fault heq => h fault (by cases heq; rfl)) fun _ hσ => ⟨hσ, rfl⟩

theorem misuse (m : Misuse) : Calm tags (MonadExcept.throw (.misuse m) : SessionM α) := throw fun _ h => by cases h

end Calm

/-- What calm work comes to can be looked at. -/
theorem Calm.observed (h : Calm tags work) : Calm tags (observing work) := by
  refine ⟨fun σ hσ => ?_, fun σ fault => ?_⟩
  · obtain ⟨hready, added, hlines, htells⟩ := h.reporting σ hσ
    rw [observing_run]
    have hquiet := htells.quiet fun fault hfault => h.noFault σ fault (Attempt.eq_error_of_failure? hfault)
    exact ⟨hready, added, hlines, hquiet.tells fun _ h => by cases h⟩
  · rw [observing_run]
    exact fun h => by cases h

theorem Intact.bind (hx : Intact x) (hf : ∀ a, Intact (f a)) : Intact (x >>= f) := by
  intro σ
  have hcells := hx σ
  rcases hrun : x σ with ⟨failure | a, τ⟩
  · rw [bind_error hrun]
    rwa [hrun] at hcells
  · rw [bind_ok hrun]
    rw [hrun] at hcells
    exact (hf a τ).trans hcells

theorem intact_pure (a : α) : Intact (pure a : SessionM α) := fun _ => rfl

theorem intact_throw (failure : Failure) : Intact (throw failure : SessionM α) := fun _ => rfl

theorem intact_get : Intact (get : SessionM Session) := fun _ => rfl

theorem Intact.observed (h : Intact work) : Intact (observing work) := fun σ => by
  rw [observing_run]
  exact h σ

namespace Gentle

theorem bind (hx : Gentle x) (hf : ∀ a, Gentle (f a)) : Gentle (x >>= f) :=
  ⟨hx.calm.bind fun a => (hf a).calm, hx.intact.bind fun a => (hf a).intact⟩

/-- What comes after gentle work tells all there is to tell. -/
theorem bind_reporting (hx : Gentle x) (hf : ∀ a, Reporting tags (f a)) : Reporting tags (x >>= f) :=
  hx.calm.reporting.bind hx.intact hf

theorem pure (a : α) : Gentle (Pure.pure a : SessionM α) := ⟨Calm.pure a, intact_pure a⟩

theorem get : Gentle (MonadState.get : SessionM Session) := ⟨Calm.get, intact_get⟩

theorem misuse (m : Misuse) : Gentle (MonadExcept.throw (.misuse m) : SessionM α) := ⟨Calm.misuse m, intact_throw _⟩

theorem observed (h : Gentle work) : Gentle (observing work) := ⟨h.calm.observed, h.intact.observed⟩

end Gentle

/-! ## Stores -/

theorem tokenFormat_run {options : Value} {asked : Option TokenFormat} {σ : Session}
    (h : σ.store.askedFormat? options = .ok asked) :
    tokenFormat options σ = (.ok (asked.getD σ.settings.tokenFormat), σ) := by
  rw [tokenFormat, bind_ok ((reading_run _ σ).trans (by rw [h]; rfl))]
  rfl

theorem gentle_reading (read : Store → Except Misuse α) : Gentle (reading read) where
  calm := .of_silent (fun σ fault => by rw [reading_run]; exact Attempt.unbroken_ofMisuse _ fault)
    fun σ hσ => by rw [reading_run]; exact ⟨hσ, rfl⟩
  intact σ := by rw [reading_run]

/-- Two stores with the same loggers in order. -/
def KeepsLoggers (s t : Store) : Prop := ∀ ⦃logger own⦄, s.HasLogger logger own → t.HasLogger logger own

theorem Ready.keeps (hσ : Ready tags σ) {s : Store} (h : KeepsLoggers σ.store s) : Ready tags { σ with store := s } :=
  ⟨hσ.level, hσ.schema.imp fun _ hown => h hown, h hσ.tree⟩

theorem calm_modify {change : Store → Store} (h : ∀ s, KeepsLoggers s (change s)) :
    Calm tags (modify fun session => { session with store := change session.store } : SessionM Unit) :=
  .of_silent (fun _ _ h => by cases h) fun σ hσ => ⟨hσ.keeps (h σ.store), rfl⟩

theorem gentle_modify {change : Store → Store} (h : ∀ s, KeepsLoggers s (change s))
    (hcells : ∀ s : Store, (change s).cells = s.cells) :
    Gentle (modify fun session => { session with store := change session.store } : SessionM Unit) :=
  ⟨calm_modify h, fun σ => hcells σ.store⟩

theorem changing_run (change : Store → Except Misuse (α × Store)) (σ : Session) :
    changing change σ = (Attempt.ofMisuse ((change σ.store).map Prod.fst),
      { σ with store := ((change σ.store).map Prod.snd).toOption.getD σ.store }) := by
  rw [changing]
  rcases hchange : change σ.store with m | ⟨a, t⟩
  · rw [bind_error ((reading_run change σ).trans (by rw [hchange]; rfl))]
    rfl
  · rw [bind_ok ((reading_run change σ).trans (by rw [hchange]; rfl))]
    rfl

theorem calm_changing {change : Store → Except Misuse (α × Store)}
    (h : ∀ s a t, change s = .ok (a, t) → KeepsLoggers s t) : Calm tags (changing change) := by
  refine .of_silent (fun σ fault => by rw [changing_run]; exact Attempt.unbroken_ofMisuse _ fault) fun σ hσ => ?_
  rw [changing_run]
  rcases hchange : change σ.store with m | ⟨a, t⟩
  · exact ⟨hσ, rfl⟩
  · exact ⟨hσ.keeps (h _ _ _ hchange), rfl⟩

theorem keepsLoggers_keepSlotNames (s : Store) (id : ObjectId) (names : List Text) :
    KeepsLoggers s (keepSlotNames s id names) := fun _ _ h => h.keep fun _ _ => rfl

theorem keepsLoggers_recordRoot (root : ObjectId) (nodes : List ObjectId) (s : Store) :
    KeepsLoggers s (s.recordRoot root nodes) := by
  induction nodes generalizing s with
  | nil => exact fun _ _ h => h
  | cons id nodes ih => exact fun _ _ h => ih _ (h.modify fun _ _ hspeaks => hspeaks)

theorem keepsLoggers_noteLines (s : Store) (file : Value) : KeepsLoggers s (s.noteLines file) := by
  unfold Store.noteLines
  split
  · split
    · split
      · exact fun _ _ h => h
      · exact fun _ _ h => h.keep fun _ _ => rfl
    · exact fun _ _ h => h
  · exact fun _ _ h => h

theorem keepsLoggers_document {s t : Store} {file : Value} {d : Document} (h : s.document file = .ok (d, t)) :
    KeepsLoggers s t := by
  unfold Store.document at h
  split at h
  · split at h
    · cases h
      exact fun _ _ h => h
    · obtain ⟨kind, -, h⟩ := Attempt.bind_eq_ok h
      obtain ⟨text, -, h⟩ := Attempt.bind_eq_ok h
      cases h
      exact fun _ _ h => h.keep fun _ _ => rfl
  · obtain ⟨kind, -, h⟩ := Attempt.bind_eq_ok h
    cases h

/-- A file is given its source. -/
theorem keepsLoggers_assignTo {s t : Store} {id : ObjectId} {value : Value} (h : s.assignTo id "source" value = .ok t) :
    KeepsLoggers s t := by
  obtain ⟨c, hc, rfl⟩ := Store.assigns_of_assignTo h
  exact fun _ _ h => h.assigns (fun level => by cases level <;> decide) hc

/-! ## Journals -/

theorem messageText?_ofText (s : Store) (message : Text) :
    ∃ shown, LogLine.messageText? s (.ofText message) = .ok shown := by
  rw [LogLine.messageText?]
  split
  · exact ⟨some message, rfl⟩
  · exact ⟨none, rfl⟩

/-- What the logger for layouts says below the level for errors is quiet. -/
theorem calm_announce_schema {level : Level} (hlevel : level ≠ .error) (message : Text) (extra : Members Data) :
    Calm tags (announce schemaLogger level message extra) := by
  have hno : ∀ σ fault, (announce schemaLogger level message extra σ).1 ≠ .error (.ofTree fault) := by
    intro σ fault
    rw [announce, journaling_run]
    exact Attempt.unbroken_ofMisuse _ fault
  refine ⟨fun σ hσ => ?_, hno⟩
  obtain ⟨l, hl⟩ := hσ.level
  obtain ⟨own, hown⟩ := hσ.schema
  obtain ⟨shown, hshown⟩ := messageText?_ofText σ.store message
  have hready : ∀ {j : Journal}, j.threshold = .level l → Ready tags { σ with journal := j } :=
    fun hj => ⟨⟨l, hj⟩, hσ.schema, hσ.tree⟩
  have htells : ∀ {lines}, Quiet lines →
      Tells σ.store tags (Attempt.failure? (announce schemaLogger level message extra σ).1) lines :=
    fun hquiet => hquiet.tells fun fault h => hno σ fault (Attempt.eq_error_of_failure? h)
  rw [announce, journaling_run] at htells ⊢
  rcases Journal.write_cases hown hl hshown level extra with
    ⟨-, hrun⟩ | ⟨-, m, last, hrun⟩ | ⟨-, text, timestamp, -, hrun⟩ <;> rw [hrun] at htells ⊢
  · exact ⟨hready hl, [], (List.append_nil _).symm, htells quiet_nil⟩
  · exact ⟨hready hl, [], (List.append_nil _).symm, htells quiet_nil⟩
  · refine ⟨hready hl, _, Array.toList_push .., htells fun line hline => ?_⟩
    cases List.mem_singleton.mp hline
    rw [LogLine.isError_compose]
    exact beq_false_of_ne hlevel

theorem gentle_announce_schema {level : Level} (hlevel : level ≠ .error) (message : Text) (extra : Members Data) :
    Gentle (announce schemaLogger level message extra) :=
  ⟨calm_announce_schema hlevel message extra, fun σ => by rw [announce, journaling_run]⟩

/-! ## Relaying -/

theorem store_relay (outcome : Attempt α) (σ : Session) : (relay outcome σ).2.store = σ.store := by
  cases outcome with
  | ok a => rfl
  | error failure =>
    obtain ⟨j, hthrown, -⟩ := thrown_cases failure σ
    rw [relay_error_run, hthrown]

theorem intact_relay (outcome : Attempt α) : Intact (relay outcome) := fun σ => by rw [store_relay]

/-- A fault of a tree is reported, and then thrown. -/
theorem reporting_relay_tree (fault : TreeFault) : Reporting tags (relay (.error (.ofTree fault) : Attempt α)) := by
  intro σ hσ
  obtain ⟨l, hl⟩ := hσ.level
  have hle : l.severity ≤ Level.error.severity := by cases l <;> decide
  have hshown : LogLine.messageText? σ.store (.ofText (faultMessage fault)) = .ok (some (faultMessage fault)) := by
    cases fault <;> rfl
  have hannounce := journaling_run (fun s => Journal.write s treeLogger .error (.ofText (faultMessage fault))
    [("error", (Fault.tree fault).toData)]) σ
  rw [relay_tree, announce]
  rcases Journal.write_cases hσ.tree hl hshown .error [("error", (Fault.tree fault).toData)] with
    ⟨hno, -⟩ | ⟨-, m, last, hrun⟩ | ⟨-, text, timestamp, htext, hrun⟩
  · exact absurd hle hno
  · rw [hrun] at hannounce
    rw [bind_error hannounce]
    exact ⟨⟨⟨l, hl⟩, hσ.schema, hσ.tree⟩, [], (List.append_nil _).symm, quiet_nil.tells fun fault h => by cases h⟩
  · rw [hrun] at hannounce
    rw [bind_ok hannounce]
    refine ⟨⟨⟨l, hl⟩, hσ.schema, hσ.tree⟩, _, Array.toList_push .., fun fault' h => ?_,
      fun hno => absurd rfl (hno fault)⟩
    cases h
    rw [LogLine.tagsText_set _ _ _ rfl, LogLine.valueText_fault] at htext
    obtain ⟨error, herror, htext⟩ := Attempt.bind_eq_ok htext
    cases htext
    exact ⟨[], _, rfl, quiet_nil, timestamp, _, error, rfl, TreeFault.shownAs_of_namedErrorText herror⟩

theorem reporting_relay (outcome : Attempt α) : Reporting tags (relay outcome) := by
  cases outcome with
  | ok a => exact (Calm.pure a).reporting
  | error failure =>
    rcases failure with ⟨fault⟩ | m | id
    · cases fault with
      | tree fault => exact reporting_relay_tree fault
      | _ => exact (Calm.throw fun _ h => by cases h).reporting
    · exact (Calm.misuse m).reporting
    · exact (Calm.throw fun _ h => by cases h).reporting

/-! ## Listing and reading -/

theorem cells_keepSlotNames (s : Store) (id : ObjectId) (names : List Text) :
    (keepSlotNames s id names).cells = s.cells := rfl

theorem gentle_listSlots (id : ObjectId) : Gentle (listSlots id) := by
  refine (gentle_reading _).bind fun layout => ?_
  have hrest : Gentle (do
      let names := (← get).store.names layout
      modify fun session => { session with store := keepSlotNames session.store id names }
      let name ← reading (·.member "name" (.object id))
      announce schemaLogger .debug "Cached slot layout"
        [("variant", .leaf name), ("slots", .leaf (.ofNat names.length))]
      return names : SessionM (List Text)) :=
    Gentle.get.bind fun _ =>
      (gentle_modify (fun s => keepsLoggers_keepSlotNames s id _) fun s => cells_keepSlotNames s id _).bind fun _ =>
      (gentle_reading _).bind fun _ => (gentle_announce_schema (by decide) _ _).bind fun _ => Gentle.pure _
  split
  · exact (Gentle.misuse _).bind fun _ => hrest
  · exact hrest

section Observing

variable {read : Store → SessionM α} {tried : Store → Attempt α}

theorem reporting_observe (hread : ∀ s, read s = relay (tried s)) : Reporting tags (observe read) := by
  have hwithin : ∀ tries, Reporting tags (observeWithin read tries) := by
    intro tries
    induction tries with
    | zero => exact (Calm.misuse _).reporting
    | succ tries ih =>
      intro σ hσ
      rw [observeWithin_succ hread]
      split
      · exact (gentle_listSlots _).bind_reporting (fun _ => ih) σ hσ
      · exact reporting_relay _ σ hσ
  exact Gentle.get.bind_reporting fun _ => hwithin _

theorem intact_observe (hread : ∀ s, read s = relay (tried s)) : Intact (observe read) := by
  have hwithin : ∀ tries, Intact (observeWithin read tries) := by
    intro tries
    induction tries with
    | zero => exact intact_throw _
    | succ tries ih =>
      intro σ
      rw [observeWithin_succ hread]
      split
      · exact ((gentle_listSlots _).intact.bind fun _ => ih) σ
      · exact intact_relay _ σ
  exact intact_get.bind fun _ => hwithin _

end Observing

/-! ## Building -/

theorem reporting_build {work : BuildingT (StateM Session) α} {tried : Building α} (hwork : work = tried.relay)
    (h : ∀ s : Store, s.Expands (tried s).2) : Reporting tags (build work) := by
  have hwithin : ∀ tries, Reporting tags (buildWithin work tries) := by
    intro tries
    induction tries with
    | zero => exact (Calm.misuse _).reporting
    | succ tries ih =>
      intro σ hσ
      have hexpands := h σ.store
      rw [buildWithin_succ hwork]
      rcases htried : tried σ.store with ⟨outcome, t⟩
      rw [htried] at hexpands
      have hcommit : Ready tags { (relay outcome σ).2 with store := t } ∧
          ∃ added, (relay outcome σ).2.journal.lines.toList = σ.journal.lines.toList ++ added ∧
            Tells σ.store tags (Attempt.failure? (relay outcome σ).1) added := by
        obtain ⟨hready, htold⟩ := reporting_relay outcome σ hσ
        refine ⟨hready.keeps fun _ _ hlogger => ?_, htold⟩
        rw [store_relay] at hlogger
        exact hlogger.expands hexpands
      rcases outcome with failure | a
      · cases failure with
        | unlisted id => exact (gentle_listSlots id).bind_reporting (fun _ => ih) σ hσ
        | fault fault => exact hcommit
        | misuse m => exact hcommit
      · exact hcommit
  exact Gentle.get.bind_reporting fun _ => hwithin _

theorem gentle_slotNames (v : Variant) : Gentle (slotNames v) := by
  refine Gentle.get.bind fun session => ?_
  split
  · exact Gentle.pure _
  · exact gentle_listSlots _

theorem gentle_askSlotNames (v : Variant) (input : Input) : Gentle (askSlotNames v input) := by
  rw [askSlotNames]
  split
  · exact (gentle_slotNames v).bind fun _ => Gentle.pure _
  · exact Gentle.pure _

theorem reporting_createNode (v : Variant) (children : Value) : Reporting tags (createNode v children) := by
  have hcreate : ∀ input, Reporting tags (build (Store.createM v input)) := fun input =>
    reporting_build (Store.createM_eq_relay v input) fun s => (Store.builds_create v input s).expands
  rw [createNode]
  split
  · exact hcreate _
  · have hrest : ∀ input, Reporting tags (askSlotNames v input >>= fun _ => build (Store.createM v input)) :=
      fun input => (gentle_askSlotNames v input).bind_reporting fun _ => hcreate input
    split
    · exact (Gentle.pure _).bind_reporting hrest
    · exact (gentle_reading _).bind_reporting hrest

/-! ## Source files -/

theorem gentle_nodesWithin (root : ObjectId) (tries : Nat) : Gentle (nodesWithin root tries) := by
  induction tries with
  | zero => exact Gentle.pure _
  | succ tries ih =>
    refine Gentle.get.bind fun session => ?_
    split
    · refine (gentle_listSlots _).observed.bind fun outcome => ?_
      split
      · exact ih
      · exact Gentle.pure _
    · exact Gentle.pure _

/-- Going through the nodes of a tree meets no fault of it, also if slots are listed meanwhile. -/
theorem nodesWithin_ne_tree {root : ObjectId} {tries : Nat} {found : List ObjectId × Option Failure}
    (h : nodesWithin root tries σ = (.ok found, τ)) (fault : TreeFault) : found.2 ≠ some (.ofTree fault) := by
  induction tries generalizing σ with
  | zero =>
    cases h
    exact fun h => by cases h
  | succ tries ih =>
    have hno := Store.nodesFrom_ne_tree (s := σ.store) (σ.store.size + 1) root fault
    rw [nodesWithin, bind_ok (get_run σ)] at h
    rcases hnodes : σ.store.nodesOf root with ⟨nodes, failure⟩
    rw [Store.nodesOf] at hnodes
    rw [Store.nodesOf, hnodes] at h
    rw [hnodes] at hno
    rcases failure with _ | ⟨f⟩ | m | id
    · cases h
      exact hno
    · cases h
      exact hno
    · cases h
      exact hno
    · have hcalm : Calm [] (listSlots id) := (gentle_listSlots id).calm
      have hlist := hcalm.noFault σ fault
      dsimp only at h
      rw [bind_ok (observing_run _ σ)] at h
      rcases hlisted : listSlots id σ with ⟨failure | names, υ⟩
      · rw [hlisted] at h hlist
        cases h
        exact fun h => hlist (by cases h; rfl)
      · rw [hlisted] at h
        exact ih h

theorem calm_recordRoots (root : ObjectId) : Calm tags (recordRoots root) := by
  refine Calm.get.bind fun session => (gentle_nodesWithin root _).calm.bind_of fun σ found τ hfound => ?_
  refine (calm_modify fun s => keepsLoggers_recordRoot root found.1 s).bind fun _ => ?_
  split
  · exact Calm.pure _
  · rename_i failure hfailure
    refine Calm.throw fun fault hfault => nodesWithin_ne_tree hfound fault ?_
    rw [hfailure, hfault]

theorem reporting_addFile (grammar : Value) (source : Source) (children : Value) :
    Reporting tags (addFile grammar source children) := by
  refine (gentle_reading _).bind_reporting fun variant => (gentle_reading _).bind_reporting fun kind =>
    (gentle_reading _).bind_reporting fun input => Gentle.get.bind_reporting fun session => ?_
  split
  · rename_i v _
    exact (gentle_askSlotNames v input).bind_reporting fun _ =>
      reporting_build (Store.addFileM_eq_relay v kind source input)
        fun s => (Store.builds_addFileBy v.plan v [] kind source input s).expands
  · exact reporting_build (Store.addOtherFileM_eq_relay variant kind source input)
      (Store.expands_addOtherFile variant kind source input)

theorem reporting_createSourceFile (grammar source children : Value) :
    Reporting tags (createSourceFile grammar source children) := by
  have hrest : ∀ root, Calm tags (recordRoots root >>= fun _ => pure root) :=
    fun root => (calm_recordRoots root).bind fun _ => Calm.pure _
  unfold createSourceFile
  dsimp only
  split
  · split
    · exact (reporting_addFile grammar _ children).bind_calm fun _ root _ _ => hrest root
    · exact ((Calm.misuse _).bind hrest).reporting
  · refine (reporting_addFile grammar _ children).bind_calm fun _ root _ _ => ?_
    refine (calm_changing fun s _ t h => ?_).bind fun _ => (Calm.pure _).bind hrest
    obtain ⟨t, ht, h⟩ := Attempt.bind_eq_ok h
    cases h
    exact keepsLoggers_assignTo ht

/-! ## Positions -/

theorem gentle_document (file : Value) : Gentle (document file) where
  calm := calm_changing fun _ _ _ h => keepsLoggers_document h
  intact σ := by
    rw [document, changing_run]
    cases hdocument : σ.store.document file with
    | error m => rfl
    | ok result => exact Store.cells_document hdocument

theorem gentle_findLines (file : Value) (d : Document) : Gentle (findLines file d) :=
  (gentle_reading _).bind fun _ => gentle_modify (fun s => keepsLoggers_noteLines s file) (·.cells_noteLines file)

theorem gentle_positionAt (file offset : Value) : Gentle (positionAt file offset) :=
  (gentle_document file).bind fun d => (gentle_reading _).bind fun _ => (gentle_findLines file d).bind fun _ =>
    gentle_reading _

theorem gentle_offsetAt (file line character : Value) : Gentle (offsetAt file line character) :=
  (gentle_document file).bind fun d => (gentle_findLines file d).bind fun _ => gentle_reading _

theorem reporting_rangeFrom {first : Store → Value → SessionM Number} {tried : Store → Value → Attempt Number}
    {v : Value} (hread : ∀ s, first s v = relay (tried s v)) : Reporting tags (rangeFrom first v) := by
  have hroot := fun s : Store => s.root_eq_relay v
  have hstop := fun s : Store => s.stop_eq_relay v
  refine (reporting_observe hroot).bind (intact_observe hroot) fun root =>
    (gentle_document _).bind_reporting fun _ => (reporting_observe hread).bind (intact_observe hread) fun start =>
    (gentle_positionAt _ _).bind_reporting fun _ => ?_
  exact (reporting_observe hstop).bind_calm fun _ stop _ _ => ((gentle_positionAt _ _).bind fun _ => Gentle.pure _).calm

/-! ## Walks -/

/-- What is thrown for a failure has been told. -/
theorem tells_thrown (hσ : Ready tags σ) (failure : Failure) : Ready tags (thrown failure σ).2 ∧
    ∃ added, (thrown failure σ).2.journal.lines.toList = σ.journal.lines.toList ++ added ∧
      Tells σ.store tags (some (thrown failure σ).1) added := by
  have htold := reporting_relay (.error failure : Attempt Unit) σ hσ
  rwa [relay_error_run] at htold

theorem reporting_pull (predicate : Option (Store → Predicate)) (w : Walk) :
    ReportingBy (TreeOperation.pull predicate w).failure? tags (pull predicate w) := by
  have hwithin : ∀ tries, ReportingBy (TreeOperation.pull predicate w).failure? tags (pullWithin predicate w tries) := by
    intro tries
    induction tries with
    | zero => exact fun σ hσ => ⟨hσ, [], (List.append_nil _).symm, quiet_nil.tells fun _ h => by cases h⟩
    | succ tries ih =>
      intro σ hσ
      rcases hnext : w.next σ.store (predicate.map (· σ.store)) with ⟨asked, outcome, after⟩
      rw [pullWithin_succ hnext]
      cases outcome with
      | yield e => exact ⟨hσ, [], (List.append_nil _).symm, quiet_nil.tells fun _ h => by cases h⟩
      | done => exact ⟨hσ, [], (List.append_nil _).symm, quiet_nil.tells fun _ h => by cases h⟩
      | failure failure =>
        cases failure with
        | unlisted id =>
          obtain ⟨hready, added, hlines, htells⟩ := (gentle_listSlots id).calm.reporting σ hσ
          have hcells := (gentle_listSlots id).intact σ
          dsimp only
          rw [bind_ok (observing_run _ σ)]
          rcases hlisted : listSlots id σ with ⟨failure | names, τ⟩ <;> rw [hlisted] at hready hlines htells hcells
          · exact ⟨hready, added, hlines, htells⟩
          · have hquiet := htells.quiet fun _ h => by cases h
            obtain ⟨hready', added', hlines', htells'⟩ := ih τ hready
            exact ⟨hready', added ++ added', by rw [hlines', hlines, List.append_assoc],
              (htells'.of_cells hcells).prepend hquiet⟩
        | fault fault => exact tells_thrown hσ (.fault fault)
        | misuse m => exact tells_thrown hσ (.misuse m)
  intro σ hσ
  rw [pull, bind_ok (get_run σ)]
  exact hwithin _ σ hσ

/-! ## New sessions -/

theorem hasLogger_addServices_of {state : Journal × Store} {logger : Value} {own : Members Text}
    (h : state.2.HasLogger logger own) (services : List Text) :
    (services.foldl addService state).2.HasLogger logger own := by
  induction services generalizing state with
  | nil => exact h
  | cons service services ih => exact ih (h.addLogger [("service", .text service)])

theorem hasLogger_addServices (services : List Text) (state : Journal × Store) {i : Nat} {service : Text}
    (h : services[i]? = some service) :
    (services.foldl addService state).2.HasLogger (.object (state.2.size + i)) [("service", service)] := by
  induction services generalizing state i with
  | nil => cases h
  | cons first services ih =>
    cases i with
    | zero =>
      cases h
      exact hasLogger_addServices_of (Store.hasLogger_addLogger state.2 [("service", service)]) services
    | succ i =>
      have hsize : (addService state first).2.size = state.2.size + 1 :=
        Store.size_add state.2 (.logger (operationMembers Store.loggerOperations))
      have hlogger := ih (addService state first) h
      rw [hsize, Nat.add_right_comm] at hlogger
      exact hlogger

theorem size_calcStore : calcStore.size = Calc.grammarId + Calc.grammar.objects.length := by
  have hkeep : ∀ (variants : List Variant) (s : Store),
      (variants.foldl (fun s v => keepSlotNames s v.self v.slotNames) s).size = s.size := by
    intro variants
    induction variants with
    | nil => exact fun _ => rfl
    | cons v variants ih => exact fun s => ih _
  rw [calcStore, hkeep, Store.size_addAll]
  rfl

/-- The loggers of the library are in order in a new session. -/
theorem hasLogger_start (now : Number) {i : Nat} {service : Text} (h : services[i]? = some service) :
    (start now).store.HasLogger (serviceLogger i) [("service", service)] := by
  rw [serviceLogger, ← size_calcStore]
  exact hasLogger_addServices services (Journal.empty now, calcStore) h

end Session

/-! ## Operations -/

open Session in
theorem TreeOperation.reporting {α : Type} (op : TreeOperation α) {tags : Members Text} :
    ReportingBy op.failure? tags op.perform := by
  cases op with
  | create variant children => exact reporting_createNode variant children
  | createSourceFile grammar source children => exact reporting_createSourceFile grammar source children
  | isNode | isSourceFile | isElement | parent | ancestor => exact (Calm.get.bind fun _ => Calm.pure _).reporting
  | kindName => exact (gentle_reading _).calm.reporting
  | root v => exact reporting_observe (Store.root_eq_relay · v)
  | child v slot => exact reporting_observe (Store.child_eq_relay · v slot)
  | list v slot => exact reporting_observe (Store.list_eq_relay · v slot)
  | entries v => exact reporting_observe (Store.contents_eq_relay · v)
  | walkChildren accept v => exact reporting_observe fun s => Walk.children_eq_relay accept v
  | walkDescendants accept v => exact reporting_observe fun s => Walk.descendants_eq_relay accept v
  | pull predicate w => exact reporting_pull predicate w
  | fullStart v => exact reporting_observe (Store.fullStart_eq_relay · v)
  | start v => exact reporting_observe (Store.start_eq_relay · v)
  | width v => exact reporting_observe (Store.width_eq_relay · v)
  | fullWidth v => exact reporting_observe (Store.fullWidth_eq_relay · v)
  | stop v => exact reporting_observe (Store.stop_eq_relay · v)
  | endPosition v => exact reporting_observe (Store.endPosition_eq_relay · v)
  | firstToken v => exact reporting_observe (Store.firstToken_eq_relay · v)
  | text v => exact reporting_observe (Store.nodeText_eq_relay · v)
  | fullText v => exact reporting_observe (Store.fullText_eq_relay · v)
  | leadingTrivia v => exact reporting_observe (Store.leadingTrivia_eq_relay · v)
  | nodeAt v offset => exact reporting_observe (Store.nodeAt_eq_relay · v offset)
  | tokenAt v offset => exact reporting_observe (Store.tokenAt_eq_relay · v offset)
  | positionAt file offset => exact (gentle_positionAt file offset).calm.reporting
  | offsetAt file line character => exact (gentle_offsetAt file line character).calm.reporting
  | nodeAtPosition file line character =>
    exact (gentle_offsetAt file line character).bind_reporting fun offset =>
      reporting_observe (Store.nodeAt_eq_relay · file offset)
  | range v => exact reporting_rangeFrom (Store.start_eq_relay · v)
  | fullRange v => exact reporting_rangeFrom (Store.fullStart_eq_relay · v)

end LosslessSyntax
