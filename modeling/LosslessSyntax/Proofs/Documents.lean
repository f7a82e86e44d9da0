import LosslessSyntax.Proofs.Lossless
import LosslessSyntax.Proofs.Relaying

/-!
# Documents

What positions in a source file are counted in, and what asking for them changes.

* `Building.Frames`: building keeps nothing beside objects, so the file of a source that was just parsed has no document
  (`Calc.frames_parse`).
* `Store.Untouched`: keeping a document, noting that its lines have been found and listing slots change neither an object
  nor a link (`Store.untouched_keep`).
* `Session.Gives`: work that succeeds in every session of a sort and leaves a session of the sort. In a session that
  holds a source file (`Session.Holds`), positions and offsets are those of its source, whether its document has been
  made before or not (`Session.gives_positionAt`, `Session.gives_offsetAt`).
-/

namespace LosslessSyntax

/-! ## Documents of objects -/

namespace Store

variable {s t u : Store}

/-- The document that is kept for an object. -/
def document? (s : Store) (id : ObjectId) : Option Document := (s.kept id).document

theorem document?_eq_none {id : ObjectId} (h : s.size ≤ id) : s.document? id = none := by
  rw [document?, s.kept_new id h]

theorem kept_recordRoot (s : Store) (root : ObjectId) (nodes : List ObjectId) :
    (s.recordRoot root nodes).kept = s.kept := by
  induction nodes generalizing s with
  | nil => rfl
  | cons id nodes ih => exact ih (s.modify id _)

end Store

/-! ## Building -/

namespace Building

variable {α β : Type} {x : Building α} {f : α → Building β}

/-- Work that changes nothing of what is kept beside objects. -/
def Frames (work : Building α) : Prop := ∀ s : Store, (work s).2.kept = s.kept

theorem frames_pure (a : α) : Frames (pure a) := fun _ => rfl

theorem frames_read (work : Store → Attempt α) : Frames (read work) := fun _ => rfl

theorem frames_add (o : Object) : Frames (add o) := fun _ => rfl

theorem frames_update {work : Store → Store} (h : ∀ s, (work s).kept = s.kept) : Frames (update work) := h

theorem frames_change (work : Store → Attempt Store.Change) : Frames (change work) := by
  intro s
  rw [change]
  split <;> rfl

theorem Frames.bind (hx : Frames x) (hf : ∀ a, Frames (f a)) : Frames (x >>= f) := by
  intro s
  have hfirst := hx s
  rcases hrun : x s with ⟨outcome, t⟩
  rw [hrun] at hfirst
  cases outcome with
  | error failure =>
    rw [bind_error hrun]
    exact hfirst
  | ok a =>
    rw [bind_ok hrun]
    exact (hf a t).trans hfirst

theorem Frames.forgetting (hx : Frames x) : Frames x.forgetting := by
  intro s
  have hwork := hx s
  rcases hrun : x s with ⟨outcome, t⟩
  rw [hrun] at hwork
  simp only [Building.forgetting, hrun]
  cases outcome with
  | ok a => exact hwork
  | error failure =>
    show (if t.cells.take s.size = s.cells then s else t).kept = _
    split
    · rfl
    · exact hwork

theorem Frames.forM {f : α → Building Unit} (hf : ∀ a, Frames (f a)) (as : List α) : Frames (as.forM f) := by
  induction as with
  | nil => exact frames_pure ()
  | cons a as ih => exact (hf a).bind fun _ => ih

theorem Frames.mapM (hf : ∀ a, Frames (f a)) (as : List α) : Frames (as.mapM f) := by
  induction as with
  | nil => exact frames_pure []
  | cons a as ih =>
    rw [List.mapM_cons]
    exact (hf a).bind fun _ => ih.bind fun _ => frames_pure _

end Building

namespace Store

open Building

theorem frames_place (checked : SlotValue) : Frames (place checked) := by
  cases checked with
  | one v => exact frames_pure v
  | many values => exact (frames_add _).bind fun _ => frames_pure _

theorem frames_fillSlot (p : Plan) (input : Input) (record : ObjectId) (slot : Text) (arity : Value) :
    Frames (fillSlot p input record slot arity) :=
  (frames_read _).bind fun checked => (frames_place checked).bind fun _ => frames_change _

theorem frames_makeSlots (p : Plan) (input : Input) : Frames (makeSlots p input) := by
  rw [makeSlots_def]
  split
  · exact frames_read _
  · refine (frames_add _).bind fun record => (Frames.forM (fun entry => ?_) _).bind fun _ => ?_
    · exact frames_fillSlot p input record entry.1 entry.2
    · exact (frames_update (fun s => rfl : ∀ s : Store, (s.modify record _).kept = s.kept)).bind fun _ => frames_pure _

theorem frames_attach (p : Plan) (n : Node) : Frames (attach p n) := by
  refine (frames_read _).bind fun children => (frames_add _).bind fun id => ?_
  exact (Frames.forM (fun _ => frames_change _) _).bind fun _ => frames_pure _

theorem frames_create (v : Variant) (input : Input) : Frames (create v input) := by
  rw [create_def]
  split
  · exact frames_read _
  · exact Frames.forgetting ((frames_makeSlots _ _).bind fun _ => frames_attach _ _)

theorem frames_createSourceFile (g : Grammar) (source : Source) (input : Input) :
    Frames (createSourceFile g source input) := by
  have hfile : Frames (addFile g.sourceFile (.ofNat g.endOfFileKind) source input) :=
    Frames.forgetting ((frames_makeSlots _ _).bind fun _ => (frames_read _).bind fun _ => frames_attach _ _)
  have hroots : ∀ root, Frames (recordRoots root) := fun root s => kept_recordRoot s root _
  exact hfile.bind fun root => (hroots root).bind fun _ => frames_pure root

end Store

namespace Calc

open Building

theorem frames_make (k : NodeKind) (slots : Members SlotValue) : Frames (make k slots) :=
  (Store.frames_create _ _).bind fun _ => frames_pure _

theorem frames_plantExpr (e : Expr ObjectId) : Frames (plantExpr e) := by
  induction e with
  | missing => exact frames_pure _
  | number value => exact frames_make _ _
  | name token => exact frames_make _ _
  | paren opening inner closing ih => exact ih.bind fun _ => frames_make _ _
  | binary left operator right ihl ihr => exact ihl.bind fun _ => ihr.bind fun _ => frames_make _ _

theorem frames_plantStatement (st : Statement ObjectId) : Frames (plantStatement st) := by
  cases st with
  | assignment name equals value semicolon => exact (frames_plantExpr value).bind fun _ => frames_make _ _
  | expression e semicolon => exact (frames_plantExpr e).bind fun _ => frames_make _ _
  | skipped token => exact frames_make _ _

/-- Parsing keeps nothing beside objects. -/
theorem frames_parse (source : Source) : Frames (parse source) := by
  refine (frames_read _).bind fun size =>
    (frames_update (fun s => rfl : ∀ s : Store, (s.addAll _).kept = s.kept)).bind fun _ => ?_
  exact (Frames.mapM frames_plantStatement _).bind fun _ => Store.frames_createSourceFile _ _ _

end Calc

/-! ## Changes that touch nothing -/

namespace Store

variable {s t u : Store}

theorem Untouched.refl (hs : s.Grounded) (hc : s.Closed) : s.Untouched s :=
  ⟨.refl s, hs, hc, fun _ => rfl, fun _ => rfl, fun _ => rfl⟩

theorem Untouched.trans (h : s.Untouched t) (h' : t.Untouched u) : s.Untouched u where
  keeps := h.keeps.trans h'.keeps
  grounded := h'.grounded
  closed := h'.closed
  parent id := (h'.parent id).trans (h.parent id)
  recorded id := (h'.recorded id).trans (h.recorded id)
  owned id := (h'.owned id).trans (h.owned id)

/-- A change of what is kept beside an object touches neither the object nor a link. -/
theorem untouched_keep (hs : s.Grounded) (hc : s.Closed) (i : ObjectId) (change : Kept → Kept) :
    s.Untouched (s.keep i change) := by
  have hkeeps : s.Keeps (s.keep i change) := ⟨Nat.le_refl _, fun _ => rfl, fun _ => rfl⟩
  refine ⟨hkeeps, hs.of_keeps hkeeps fun hge hlt => ?_, ⟨fun ho => hc.refers ho⟩, fun _ => rfl, fun _ => rfl,
    fun _ => rfl⟩
  exact absurd hlt (Nat.not_lt_of_le hge)

/-- A source file with a text for source. -/
structure Sourced (s : Store) (root : ObjectId) (source : Text) : Prop where
  grounded : s.Grounded
  shows : ∃ node rows, s.Shows root node rows
  lookup : s.lookup root "source" = .text source

theorem Sourced.untouched {root : ObjectId} {source : Text} (h : s.Sourced root source) (hu : s.Untouched t) :
    t.Sourced root source := by
  obtain ⟨node, rows, hshows⟩ := h.shows
  refine ⟨hu.grounded, ⟨node, rows, hshows.keeps h.grounded hu.keeps⟩, ?_⟩
  rw [h.grounded.lookup_keeps hu.keeps hshows.lt_size (by decide), h.lookup]

/-- A source file has a document as soon as one is asked for: the one that is kept, or else its source. -/
theorem Sourced.document {root : ObjectId} {source : Text} (h : s.Sourced root source) (hc : s.Closed)
    (hd : ∀ d ∈ s.document? root, d.content = .text source) : ∃ d t, s.document (.object root) = .ok (d, t) ∧
      d.content = .text source ∧ s.Untouched t ∧ ∀ d ∈ t.document? root, d.content = .text source := by
  rw [Store.document]
  cases hkept : s.document? root with
  | some d =>
    rw [document?] at hkept
    rw [hkept]
    exact ⟨d, s, rfl, hd d hkept, .refl h.grounded hc, hd⟩
  | none =>
    obtain ⟨node, rows, hshows⟩ := h.shows
    rw [document?] at hkept
    rw [hkept, hshows.kindName, h.lookup]
    refine ⟨_, _, rfl, rfl, untouched_keep h.grounded hc root _, fun d hmem => ?_⟩
    rw [document?, kept_keep, if_pos ⟨rfl, hshows.lt_size⟩] at hmem
    cases hmem
    rfl

/-- Noting that the lines of a document have been found leaves it what it was. -/
theorem Sourced.noteLines {root : ObjectId} {source : Text} (h : s.Sourced root source) (hc : s.Closed)
    (hd : ∀ d ∈ s.document? root, d.content = .text source) : s.Untouched (s.noteLines (.object root)) ∧
      ∀ d ∈ (s.noteLines (.object root)).document? root, d.content = .text source := by
  rw [Store.noteLines]
  split
  · rename_i d hkept
    split
    · exact ⟨.refl h.grounded hc, hd⟩
    · refine ⟨untouched_keep h.grounded hc root _, fun d' hmem => ?_⟩
      rw [document?, kept_keep] at hmem
      split at hmem
      · cases hmem
        exact hd d hkept
      · exact hd d' hmem
  · exact ⟨.refl h.grounded hc, hd⟩

end Store

/-! ## Work in sessions -/

namespace Session

variable {α β : Type} {K : Session → Prop} {P : α → Prop} {Q : β → Prop} {σ τ : Session}

/-- Work that succeeds in every session of a sort and leaves one of the sort, with what it gives. -/
def Gives (K : Session → Prop) (work : SessionM α) (P : α → Prop) : Prop :=
  ∀ σ, K σ → ∃ a τ, work σ = (.ok a, τ) ∧ P a ∧ K τ

theorem Gives.bind {x : SessionM α} {f : α → SessionM β} (hx : Gives K x P) (hf : ∀ a, P a → Gives K (f a) Q) :
    Gives K (x >>= f) Q := by
  intro σ hσ
  obtain ⟨a, τ, hrun, ha, hτ⟩ := hx σ hσ
  rw [bind_ok hrun]
  exact hf a ha τ hτ

theorem gives_pure {a : α} (ha : P a) : Gives K (pure a) P := fun σ hσ => ⟨a, σ, rfl, ha, hσ⟩

theorem gives_reading {read : Store → Except Misuse α} (h : ∀ σ, K σ → ∃ a, read σ.store = .ok a ∧ P a) :
    Gives K (reading read) P := by
  intro σ hσ
  obtain ⟨a, hread, ha⟩ := h σ hσ
  refine ⟨a, σ, ?_, ha, hσ⟩
  show attempt (Attempt.ofMisuse (read σ.store)) σ = _
  rw [hread]
  rfl

theorem gives_changing {change : Store → Except Misuse (α × Store)}
    (h : ∀ σ, K σ → ∃ a t, change σ.store = .ok (a, t) ∧ P a ∧ K { σ with store := t }) :
    Gives K (changing change) P := by
  intro σ hσ
  obtain ⟨a, t, hchange, ha, hτ⟩ := h σ hσ
  have hread : reading change σ = (.ok (a, t), σ) := by
    show attempt (Attempt.ofMisuse (change σ.store)) σ = _
    rw [hchange]
    rfl
  refine ⟨a, { σ with store := t }, ?_, ha, hτ⟩
  rw [changing, bind_ok hread]
  rfl

theorem gives_observe {read : Store → SessionM α} {tried : Store → Attempt α} (hread : ∀ s, read s = relay (tried s))
    (h : ∀ σ, K σ → ∃ a, tried σ.store = .ok a ∧ P a) : Gives K (observe read) P := by
  intro σ hσ
  obtain ⟨a, htried, ha⟩ := h σ hσ
  have hobserving : observing (read σ.store) σ = (.ok (.ok a), σ) := by
    rw [hread, htried]
    exact observing_run ..
  refine ⟨a, σ, ?_, ha, hσ⟩
  rw [observe, bind_ok (get_run σ), observeWithin, bind_ok (get_run σ), bind_ok hobserving]
  rfl

/-! ## Positions and offsets -/

/-- A session that holds a source file: the objects of a store and their links are as they were, and the document of the
file, if there is one, is its source. -/
structure Holds (s : Store) (root : ObjectId) (source : Text) (σ : Session) : Prop where
  untouched : s.Untouched σ.store
  document : ∀ d ∈ σ.store.document? root, d.content = .text source

variable {s : Store} {root : ObjectId} {source : Text}

theorem gives_document (h : s.Sourced root source) :
    Gives (Holds s root source) (document (.object root)) (·.content = .text source) := by
  refine gives_changing fun σ hσ => ?_
  obtain ⟨d, t, hrun, hcontent, htouch, hd⟩ := (h.untouched hσ.untouched).document hσ.untouched.closed hσ.document
  exact ⟨d, t, hrun, hcontent, hσ.untouched.trans htouch, hd⟩

theorem gives_findLines (h : s.Sourced root source) {d : Document} (hd : d.content = .text source) :
    Gives (Holds s root source) (findLines (.object root) d) fun _ => True := by
  have hlines : Gives (Holds s root source) (reading (·.lineStarts d)) fun _ => True :=
    gives_reading fun σ _ => ⟨source.lineStarts, by rw [Store.lineStarts, hd]; rfl, trivial⟩
  refine hlines.bind fun _ _ σ hσ => ?_
  obtain ⟨htouch, hnoted⟩ := (h.untouched hσ.untouched).noteLines hσ.untouched.closed hσ.document
  exact ⟨(), _, rfl, trivial, hσ.untouched.trans htouch, hnoted⟩

theorem gives_positionAt (h : s.Sourced root source) (offset : Number) :
    Gives (Holds s root source) (positionAt (.object root) (.number offset)) (· = source.positionAt offset) := by
  refine (gives_document h).bind fun d hd => ?_
  have hclamped : Gives (Holds s root source) (reading (·.clampedOffset d (.number offset))) fun _ => True :=
    gives_reading fun σ _ => ⟨_, by rw [Store.clampedOffset, hd]; rfl, trivial⟩
  refine hclamped.bind fun _ _ => (gives_findLines h hd).bind fun _ _ => gives_reading fun σ _ => ?_
  exact ⟨_, by rw [Store.positionIn, hd]; rfl, rfl⟩

theorem gives_offsetAt (h : s.Sourced root source) (p : Position) :
    Gives (Holds s root source) (offsetAt (.object root) (.number p.line) (.number p.character))
      (· = (source.offsetAt p).elim .undefined .number) := by
  refine (gives_document h).bind fun d hd => (gives_findLines h hd).bind fun _ _ => gives_reading fun σ _ => ?_
  exact ⟨_, by simp only [Store.offsetIn, hd], rfl⟩

/-! ## New sessions -/

theorem untouched_addLogger (hs : s.Grounded) (hc : s.Closed) (tags : Members Value) :
    s.Untouched (s.addLogger tags).2 := by
  have hadd : s.Untouched (s.addAll [.logger (operationMembers Store.loggerOperations)]) := by
    refine Store.untouched_addAll hs hc (List.forall_mem_singleton.mpr ?_)
    refine Object.refers_of_members (fun _ _ _ heq => by cases heq) fun entry hentry => ?_
    obtain ⟨name, _, rfl⟩ := List.mem_map.mp hentry
    trivial
  have heq : (s.add (.logger (operationMembers Store.loggerOperations))).2 =
      s.addAll [.logger (operationMembers Store.loggerOperations)] :=
    Store.withCells_congr (h := by simp) (Array.toList_inj.mp (by simp))
  rw [← heq] at hadd
  rw [Store.addLogger_snd]
  exact hadd.trans (Store.untouched_keep hadd.grounded hadd.closed _ _)

theorem hosts_keepSlotNames (h : Calc.Hosts s) (variants : List Variant) :
    Calc.Hosts (variants.foldl (fun s v => keepSlotNames s v.self v.slotNames) s) := by
  induction variants generalizing s with
  | nil => exact h
  | cons v variants ih =>
    have htouch : s.Untouched (keepSlotNames s v.self v.slotNames) :=
      Store.untouched_keep h.grounded h.closed v.self _
    exact ih (h.keeps htouch.keeps htouch.grounded htouch.closed)

theorem hosts_addServices {state : Journal × Store} (h : Calc.Hosts state.2) (services : List Text) :
    Calc.Hosts (services.foldl addService state).2 := by
  induction services generalizing state with
  | nil => exact h
  | cons service services ih =>
    have htouch := untouched_addLogger h.grounded h.closed [("service", .text service)]
    exact ih (h.keeps htouch.keeps htouch.grounded htouch.closed)

/-- Sources can be parsed in a new session. -/
theorem hosts_start (now : Number) : Calc.Hosts (start now).store :=
  hosts_addServices (hosts_keepSlotNames Calc.hosts_start _) services

end Session

end LosslessSyntax
