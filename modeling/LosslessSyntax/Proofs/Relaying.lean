import LosslessSyntax.Session

/-!
# Reading where faults are reported

The functions that read trees are given in any monad in which a fault can be built (`Reports`). As an `Attempt` such a
function reads where nobody listens. In a session each fault is reported where it is built (`TreeFault.build`), whatever
becomes of it afterwards. The laws of this module say what becomes of it: in a session, a function comes to what it comes
to as an attempt, and it has written nothing but one report, if it fails by a fault of a tree (`Session.relay`). So a
fault is thrown once it is built, nobody on its way drops it or builds it again, and no fault is built in vain.

* `Session.relay_bind`: relaying goes through all that reading is put together of.
* `Store.fullStart_eq_relay` and the like: the law for each function that reads or renders.
* `Walk.nextM_eq_relay`: the law for pulling a walk, which hands out its failure along with the walk after it.
* `Session.observeWithin_succ`, `Session.pullWithin_succ`: what a session does with such a function.
-/

namespace LosslessSyntax

namespace Session

variable {α β : Type} {σ τ : Session}

/-! ## Work in sessions -/

theorem bind_ok {x : SessionM α} {f : α → SessionM β} {a : α} (h : x σ = (.ok a, τ)) : (x >>= f) σ = f a τ := by
  simp only [bind, ExceptT.bind, ExceptT.mk, StateT.bind, h, ExceptT.bindCont]

theorem bind_error {x : SessionM α} {f : α → SessionM β} {failure : Failure} (h : x σ = (.error failure, τ)) :
    (x >>= f) σ = (.error failure, τ) := by
  simp only [bind, ExceptT.bind, ExceptT.mk, StateT.bind, h, ExceptT.bindCont]
  rfl

theorem get_run (σ : Session) : (get : SessionM Session) σ = (.ok σ, σ) := rfl

theorem observing_run (work : SessionM α) (σ : Session) : observing work σ = (.ok (work σ).1, (work σ).2) := by
  simp only [observing, tryCatch, tryCatchThe, MonadExceptOf.tryCatch, ExceptT.tryCatch, bind, ExceptT.bind, ExceptT.mk,
    StateT.bind]
  rcases work σ with ⟨outcome, τ⟩
  cases outcome <;> rfl

theorem lift_run (work : StateM Session α) (σ : Session) :
    (ExceptT.lift work : SessionM α) σ = (.ok (work σ).1, (work σ).2) := rfl

theorem reading_run (read : Store → Except Misuse α) (σ : Session) :
    reading read σ = (Attempt.ofMisuse (read σ.store), σ) := by
  show attempt (Attempt.ofMisuse (read σ.store)) σ = _
  cases read σ.store <;> rfl

theorem journaling_run (work : Store → JournalM α) (σ : Session) :
    journaling work σ =
      (Attempt.ofMisuse (work σ.store σ.journal).1, { σ with journal := (work σ.store σ.journal).2 }) := by
  rcases hrun : work σ.store σ.journal with ⟨outcome, j⟩
  have hrun' : (work σ.store).run σ.journal = (outcome, j) := hrun
  rw [journaling, bind_ok (get_run σ), hrun']
  cases outcome <;> rfl

/-! ## Relaying -/

@[simp] theorem relay_pure (a : α) : relay (pure a) = pure a := rfl

theorem relay_misuse (m : Misuse) : relay (throw (.misuse m) : Attempt α) = throw (.misuse m) := rfl

theorem relay_tree (fault : TreeFault) :
    relay (.error (.ofTree fault) : Attempt α) = (do
      announce treeLogger .error (faultMessage fault) [("error", (Fault.tree fault).toData)]
      throw (.ofTree fault)) := bind_assoc (m := SessionM) (Reports.report fault) _ _

theorem relay_error_bind (failure : Failure) (f : α → SessionM β) :
    relay (.error failure) >>= f = relay (.error failure) := by
  rcases failure with ⟨fault⟩ | m | id
  · cases fault with
    | tree fault => exact bind_assoc (m := SessionM) fault.build _ _
    | _ => rfl
  · rfl
  · rfl

theorem relay_bind (x : Attempt α) (f : α → Attempt β) : relay (x >>= f) = relay x >>= fun a => relay (f a) := by
  cases x with
  | ok a => rfl
  | error failure => exact (relay_error_bind failure _).symm

theorem relay_map (f : α → β) (x : Attempt α) : relay (f <$> x) = f <$> relay x := by
  rw [map_eq_pure_bind, relay_bind, map_eq_pure_bind]
  rfl

theorem relay_ite {c : Prop} [Decidable c] (x y : Attempt α) :
    relay (if c then x else y) = if c then relay x else relay y := apply_ite relay c x y

theorem relay_mapM (f : α → Attempt β) (as : List α) : relay (as.mapM f) = as.mapM fun a => relay (f a) := by
  induction as with
  | nil => rfl
  | cons a as ih => simp only [List.mapM_cons, relay_bind, ih, relay_pure]

theorem relay_foldlM (f : β → α → Attempt β) (as : List α) (b : β) :
    relay (as.foldlM f b) = as.foldlM (fun b a => relay (f b a)) b := by
  induction as generalizing b with
  | nil => rfl
  | cons a as ih => simp only [List.foldlM_cons, relay_bind, ih]

theorem relay_findM? (p : α → Attempt Bool) (as : List α) : relay (as.findM? p) = as.findM? fun a => relay (p a) := by
  induction as with
  | nil => rfl
  | cons a as ih =>
    simp only [List.findM?, relay_bind]
    refine bind_congr fun found => ?_
    cases found with
    | true => rfl
    | false => exact ih

theorem relay_findSomeM? (f : α → Attempt (Option β)) (as : List α) :
    relay (as.findSomeM? f) = as.findSomeM? fun a => relay (f a) := by
  induction as with
  | nil => rfl
  | cons a as ih =>
    simp only [List.findSomeM?, relay_bind]
    refine bind_congr fun found => ?_
    cases found with
    | some b => rfl
    | none => exact ih

/-- What is thrown for a failure in a session: a fault of a tree that cannot be reported gives way to the reason. -/
def thrown (failure : Failure) : StateM Session Failure := fun σ =>
  match relay (.error failure : Attempt Failure) σ with
  | (.ok failure, τ) => (failure, τ)
  | (.error failure, τ) => (failure, τ)

theorem relay_error_run (failure : Failure) (σ : Session) :
    relay (.error failure : Attempt α) σ = (.error (thrown failure σ).1, (thrown failure σ).2) := by
  have hthrow := relay_error_bind failure (throw : Failure → SessionM α)
  rw [← hthrow]
  rcases hrun : relay (.error failure : Attempt Failure) σ with ⟨failure | failure, τ⟩
  · rw [bind_error hrun, thrown, hrun]
  · rw [bind_ok hrun, thrown, hrun]
    rfl

theorem announce_eq (logger : Value) (level : Level) (message : Text) (extra : Members Data) (σ : Session) :
    ∃ (outcome : Except Misuse Unit) (j : Journal),
      announce logger level message extra σ = (Attempt.ofMisuse outcome, { σ with journal := j }) :=
  ⟨_, _, journaling_run _ σ⟩

/-- A failure is thrown as it is, unless it cannot be reported; and only the journal is another one then. -/
theorem thrown_cases (failure : Failure) (σ : Session) : ∃ j, (thrown failure σ).2 = { σ with journal := j } ∧
    ((thrown failure σ).1 = failure ∨ ∃ m, (thrown failure σ).1 = .misuse m) := by
  rcases failure with ⟨fault⟩ | m | id
  · cases fault with
    | tree fault =>
      have hthrown : thrown (.fault (.tree fault)) σ = match relay (.error (.ofTree fault) : Attempt Failure) σ with
        | (.ok failure, τ) => (failure, τ)
        | (.error failure, τ) => (failure, τ) := rfl
      obtain ⟨m | u, j, hannounce⟩ := announce_eq treeLogger .error (faultMessage fault)
        [("error", (Fault.tree fault).toData)] σ
      · rw [hthrown, relay_tree, bind_error hannounce]
        exact ⟨j, rfl, .inr ⟨m, rfl⟩⟩
      · rw [hthrown, relay_tree, bind_ok hannounce]
        exact ⟨j, rfl, .inl rfl⟩
    | _ => exact ⟨σ.journal, rfl, .inl rfl⟩
  · exact ⟨σ.journal, rfl, .inl rfl⟩
  · exact ⟨σ.journal, rfl, .inl rfl⟩

/-- A failure that is thrown asks for slots only if it did so before. -/
theorem thrown_unlisted {failure : Failure} {σ : Session} {id : ObjectId} (h : (thrown failure σ).1 = .unlisted id) :
    failure = .unlisted id := by
  obtain ⟨_, -, hsame | ⟨m, hmisuse⟩⟩ := thrown_cases failure σ
  · exact hsame.symm.trans h
  · cases hmisuse.symm.trans h

/-! ## Reading -/

/-- Reading once: slots are listed if that is called for, and otherwise what reading comes to is relayed. -/
theorem observeWithin_succ {read : Store → SessionM α} {tried : Store → Attempt α}
    (hread : ∀ s, read s = relay (tried s)) (tries : Nat) (σ : Session) :
    observeWithin read (tries + 1) σ =
      match tried σ.store with
      | .error (.unlisted id) => (do let _ ← listSlots id; observeWithin read tries) σ
      | outcome => relay outcome σ := by
  rw [observeWithin, bind_ok (get_run σ), bind_ok (observing_run _ σ), hread]
  cases tried σ.store with
  | ok a => rfl
  | error failure =>
    cases failure with
    | unlisted id => rfl
    | misuse m => rfl
    | fault fault =>
      dsimp only
      rw [relay_error_run]
      rcases hthrown : thrown (.fault fault) σ with ⟨failure, τ⟩
      cases failure with
      | unlisted id => cases thrown_unlisted (congrArg Prod.fst hthrown)
      | _ => rfl

theorem ofMisuse_eq_relay (x : Except Misuse α) : (Attempt.ofMisuse x : SessionM α) = relay (Attempt.ofMisuse x) := by
  cases x <;> rfl

end Session

open Session

namespace Store

variable {α β : Type} (s : Store) (v : Value)

/-! ## Shapes -/

theorem slotNamesOf_eq_relay : (s.slotNamesOf v : SessionM (List Text)) = relay (s.slotNamesOf v) := by
  unfold slotNamesOf
  repeat' split
  all_goals rfl

theorem slotNames_eq_relay : (s.slotNames v : SessionM (List Text)) = relay (s.slotNames v) := by
  unfold slotNames
  split
  · rfl
  · simp only [relay_bind, ofMisuse_eq_relay, slotNamesOf_eq_relay]

theorem contents_eq_relay : (s.contents v : SessionM (Members Value)) = relay (s.contents v) := by
  simp only [contents, relay_bind, relay_mapM, relay_pure, slotNames_eq_relay, ofMisuse_eq_relay]

theorem malformed_eq_relay (cause : Malformation) : (s.malformed cause v : SessionM α) = relay (s.malformed cause v) := by
  simp only [malformed, relay_bind, ofMisuse_eq_relay]
  rfl

theorem detached_eq_relay : (s.detached v : SessionM α) = relay (s.detached v) := by
  simp only [detached, relay_bind, ofMisuse_eq_relay]
  rfl

/-! ## Links -/

theorem root_eq_relay : (s.root v : SessionM ObjectId) = relay (s.root v) := by
  unfold root
  split
  · split
    · rfl
    · simp only [relay_ite, relay_pure, detached_eq_relay]
  · exact detached_eq_relay ..

theorem source_eq_relay : (s.source v : SessionM Value) = relay (s.source v) := by
  simp only [source, relay_bind, relay_pure, root_eq_relay]

theorem endOfFile_eq_relay : (s.endOfFile v : SessionM Value) = relay (s.endOfFile v) := by
  simp only [endOfFile, relay_bind, relay_pure, root_eq_relay]

theorem declaredSlot_eq_relay (slot : Text) :
    (s.declaredSlot v slot : SessionM (Value × Value)) = relay (s.declaredSlot v slot) := by
  simp only [declaredSlot, relay_bind, ofMisuse_eq_relay]
  refine bind_congr fun arity => ?_
  cases arity with
  | none => exact malformed_eq_relay ..
  | some arity => simp only [relay_bind, relay_pure]

theorem child_eq_relay (slot : Text) : (s.child v slot : SessionM Value) = relay (s.child v slot) := by
  simp only [child, relay_bind, relay_ite, relay_pure, declaredSlot_eq_relay, malformed_eq_relay]

theorem list_eq_relay (slot : Text) : (s.list v slot : SessionM Value) = relay (s.list v slot) := by
  simp only [list, relay_bind, relay_ite, relay_pure, declaredSlot_eq_relay, malformed_eq_relay]

/-! ## Items -/

theorem items_eq_relay : (s.items v : SessionM (List Item)) = relay (s.items v) := by
  simp only [items, relay_bind, relay_pure, slotNames_eq_relay]

theorem read_eq_relay (item : Item) : (s.read v item : SessionM Element) = relay (s.read v item) := by
  cases item with
  | value slot value =>
    simp only [read]
    split
    · rfl
    · exact malformed_eq_relay ..
  | unreadable m => rfl

theorem openCursor_eq_relay : (s.openCursor v : SessionM Cursor) = relay (s.openCursor v) := by
  simp only [openCursor, relay_bind, relay_pure, slotNames_eq_relay]

variable {s} in
theorem foldBelow_eq_relay {step : β → Element → SessionM β} {tried : β → Element → Attempt β}
    (h : ∀ state e, step state e = relay (tried state e)) (depth : Nat) (v : Value) (state : β) :
    s.foldBelow step depth v state = relay (s.foldBelow tried depth v state) := by
  induction depth generalizing v state with
  | zero => rfl
  | succ depth ih =>
    simp only [foldBelow, relay_bind, relay_foldlM, items_eq_relay, read_eq_relay, h]
    refine bind_congr fun items => congrArg (List.foldlM · state items) ?_
    funext state item
    refine bind_congr fun e => bind_congr fun state => ?_
    cases e with
    | node child t => exact ih ..
    | token id t => rfl

variable {s} in
theorem foldElements_eq_relay {step : β → Element → SessionM β} {tried : β → Element → Attempt β}
    (h : ∀ state e, step state e = relay (tried state e)) (v : Value) (state : β) :
    s.foldElements step v state = relay (s.foldElements tried v state) := foldBelow_eq_relay h ..

theorem descendants_eq_relay : (s.descendants v : SessionM (List Element)) = relay (s.descendants v) := by
  have hfold : (s.foldElements (fun elements e => return e :: elements) v [] : SessionM (List Element)) =
      relay (s.foldElements (fun elements e => return e :: elements) v []) :=
    foldElements_eq_relay (fun _ _ => (relay_pure _).symm) v []
  simp only [descendants, relay_bind, relay_pure, hfold]

theorem descendantNodes_eq_relay : (s.descendantNodes v : SessionM (List ObjectId)) = relay (s.descendantNodes v) := by
  simp only [descendantNodes, relay_bind, relay_pure, descendants_eq_relay]

variable {s} in
theorem searchBelow_eq_relay {answer : ObjectId → Token → SessionM (Option α)}
    {tried : ObjectId → Token → Attempt (Option α)} (h : ∀ id t, answer id t = relay (tried id t)) (depth : Nat)
    (v : Value) : s.searchBelow answer depth v = relay (s.searchBelow tried depth v) := by
  induction depth generalizing v with
  | zero => rfl
  | succ depth ih =>
    simp only [searchBelow, relay_bind, relay_findSomeM?, items_eq_relay, read_eq_relay, h]
    refine bind_congr fun items => congrArg (List.findSomeM? · items) ?_
    funext item
    refine bind_congr fun e => ?_
    cases e with
    | node child t =>
      cases t with
      | none => exact ih _
      | some t =>
        simp only [relay_bind]
        refine bind_congr fun found => ?_
        cases found with
        | none => exact ih _
        | some a => rfl
    | token id t => rfl

variable {s} in
theorem findToken_eq_relay {answer : ObjectId → Token → SessionM (Option α)}
    {tried : ObjectId → Token → Attempt (Option α)} (h : ∀ id t, answer id t = relay (tried id t)) (v : Value) :
    s.findToken answer v = relay (s.findToken tried v) := searchBelow_eq_relay h ..

theorem firstToken_eq_relay : (s.firstToken v : SessionM (Option (ObjectId × Token))) = relay (s.firstToken v) :=
  findToken_eq_relay (fun _ _ => (relay_pure _).symm) v

/-! ## Measures -/

theorem edgeAt_eq_relay (offset : Token → Number) (depth : Nat) :
    (s.edgeAt offset depth v : SessionM Number) = relay (s.edgeAt offset depth v) := by
  induction depth generalizing v with
  | zero => rfl
  | succ depth ih =>
    simp only [edgeAt, relay_bind, items_eq_relay]
    refine bind_congr fun items => ?_
    cases items with
    | nil => exact malformed_eq_relay ..
    | cons first rest =>
      simp only [relay_bind, read_eq_relay]
      refine bind_congr fun e => ?_
      cases e with
      | node child t => exact ih _
      | token id t => rfl

theorem fullStart_eq_relay : (s.fullStart v : SessionM Number) = relay (s.fullStart v) := edgeAt_eq_relay ..

theorem start_eq_relay : (s.start v : SessionM Number) = relay (s.start v) := edgeAt_eq_relay ..

variable {s} in
theorem sumItems_eq_relay {nodeSize : Value → SessionM Number} {tried : Value → Attempt Number}
    (h : ∀ v, nodeSize v = relay (tried v)) (owner : Value) (total : Number) (items : List Item) :
    s.sumItems owner nodeSize total items = relay (s.sumItems owner tried total items) := by
  simp only [sumItems, relay_foldlM, relay_bind, read_eq_relay, h]
  refine congrArg (List.foldlM · total items) ?_
  funext sum item
  refine bind_congr fun e => ?_
  cases e with
  | node child t => simp only [relay_bind, relay_pure]
  | token id t => rfl

theorem fullWidthAt_eq_relay (depth : Nat) :
    (s.fullWidthAt depth v : SessionM Number) = relay (s.fullWidthAt depth v) := by
  induction depth generalizing v with
  | zero => rfl
  | succ depth ih => simp only [fullWidthAt, relay_bind, items_eq_relay, sumItems_eq_relay ih]

theorem widthAt_eq_relay (depth : Nat) : (s.widthAt depth v : SessionM Number) = relay (s.widthAt depth v) := by
  induction depth generalizing v with
  | zero => rfl
  | succ depth ih =>
    simp only [widthAt, relay_bind, items_eq_relay]
    refine bind_congr fun items => ?_
    cases items with
    | nil => rfl
    | cons first rest =>
      simp only [relay_bind, read_eq_relay]
      refine bind_congr fun e => ?_
      cases e with
      | node child t => simp only [relay_bind, ih, sumItems_eq_relay fun v => fullWidthAt_eq_relay s v depth]
      | token id t => simp only [relay_bind, relay_pure, sumItems_eq_relay fun v => fullWidthAt_eq_relay s v depth]

theorem fullWidth_eq_relay : (s.fullWidth v : SessionM Value) = relay (s.fullWidth v) := by
  simp only [fullWidth, relay_ite, relay_map, fullWidthAt_eq_relay, ofMisuse_eq_relay]

theorem width_eq_relay : (s.width v : SessionM Value) = relay (s.width v) := by
  simp only [width, relay_ite, relay_map, widthAt_eq_relay, ofMisuse_eq_relay]

theorem stop_eq_relay : (s.stop v : SessionM Value) = relay (s.stop v) := by
  simp only [stop, relay_bind, fullStart_eq_relay, fullWidth_eq_relay, ofMisuse_eq_relay]

theorem nextNode?_eq_relay (items : List Item) :
    (s.nextNode? v items : SessionM (Option ObjectId)) = relay (s.nextNode? v items) := by
  induction items with
  | nil => rfl
  | cons item rest ih =>
    simp only [nextNode?, relay_bind, read_eq_relay]
    refine bind_congr fun e => ?_
    cases e with
    | node id t => rfl
    | token id t => exact ih

theorem nodeAfter?_eq_relay (owner : Value) (items : List Item) :
    (s.nodeAfter? owner v items : SessionM (Option (Option ObjectId))) = relay (s.nodeAfter? owner v items) := by
  induction items with
  | nil => rfl
  | cons item rest ih =>
    simp only [nodeAfter?, relay_bind, read_eq_relay]
    refine bind_congr fun e => ?_
    cases e with
    | node child t => simp only [relay_ite, relay_bind, relay_pure, nextNode?_eq_relay, ih]
    | token id t => exact ih

theorem endPosition_eq_relay : (s.endPosition v : SessionM Value) = relay (s.endPosition v) := by
  simp only [endPosition, relay_bind, relay_ite, ofMisuse_eq_relay, items_eq_relay, nodeAfter?_eq_relay,
    detached_eq_relay]
  refine bind_congr fun parent => ?_
  congr 1
  refine bind_congr fun items => bind_congr fun found => ?_
  rcases found with _ | _ | next
  · exact malformed_eq_relay ..
  · simp only [relay_bind, endOfFile_eq_relay]
  · simp only [relay_bind, relay_pure, fullStart_eq_relay]

/-! ## Texts -/

theorem cut_eq_relay (source : Value) (t : Token) (ofText : Token → Text → Text)
    (ofFields : TokenFields → Store → Value → Except Misuse Data) :
    (s.cut source t ofText ofFields : SessionM Data) = relay (s.cut source t ofText ofFields) := by
  unfold cut
  split
  · rfl
  · exact ofMisuse_eq_relay _

theorem tokenTexts_eq_relay {first : Token → SessionM Data} {tried : Token → Attempt Data}
    (h : ∀ t, first t = relay (tried t)) (source : Value) :
    s.tokenTexts first source v = relay (s.tokenTexts tried source v) := by
  have haddText : ∀ texts t, s.addText first source texts t = relay (s.addText tried source texts t) := by
    intro texts t
    have hfull : (s.tokenFullText source t : SessionM Data) = relay (s.tokenFullText source t) := cut_eq_relay ..
    simp only [addText]
    split <;> simp only [relay_bind, relay_pure, ofMisuse_eq_relay, h, hfull]
  simp only [tokenTexts, relay_bind, relay_pure]
  refine congrArg (· >>= _) (foldElements_eq_relay (fun texts e => ?_) v [])
  cases e.token? with
  | none => rfl
  | some t => exact haddText texts t.2

theorem nodeText_eq_relay : (s.nodeText v : SessionM Text) = relay (s.nodeText v) := by
  simp only [nodeText, relay_bind, source_eq_relay]
  exact bind_congr fun source => tokenTexts_eq_relay s v (fun t => cut_eq_relay ..) source

theorem fullText_eq_relay : (s.fullText v : SessionM Text) = relay (s.fullText v) := by
  simp only [fullText, relay_bind, source_eq_relay]
  exact bind_congr fun source => tokenTexts_eq_relay s v (fun t => cut_eq_relay ..) source

theorem leadingTrivia_eq_relay : (s.leadingTrivia v : SessionM Data) = relay (s.leadingTrivia v) := by
  simp only [leadingTrivia, relay_bind, firstToken_eq_relay]
  refine bind_congr fun found => ?_
  cases found with
  | none => rfl
  | some first =>
    simp only [relay_bind, source_eq_relay]
    exact bind_congr fun source => cut_eq_relay ..

/-! ## Offsets -/

theorem spanContains_eq_relay (offset : Value) (id : ObjectId) :
    (s.spanContains offset id : SessionM Bool) = relay (s.spanContains offset id) := by
  simp only [spanContains, relay_bind, relay_ite, relay_pure, fullStart_eq_relay, endPosition_eq_relay,
    ofMisuse_eq_relay]

theorem nodeAt_eq_relay (offset : Value) :
    (s.nodeAt v offset : SessionM (Option ObjectId)) = relay (s.nodeAt v offset) := by
  simp only [nodeAt, relay_bind, relay_findM?, descendantNodes_eq_relay, ← spanContains_eq_relay]

theorem tokenAt_eq_relay (offset : Value) :
    (s.tokenAt v offset : SessionM (Option (ObjectId × Token))) = relay (s.tokenAt v offset) := by
  refine findToken_eq_relay (fun id t => ?_) v
  simp only [relay_bind, relay_pure, ofMisuse_eq_relay]

/-! ## Rendering -/

theorem renderSlot_eq_relay {element : Value → SessionM Data} {tried : Value → Attempt Data}
    (h : ∀ v, element v = relay (tried v)) (content : Value) :
    s.renderSlot element content = relay (s.renderSlot tried content) := by
  simp only [renderSlot]
  split
  · rfl
  · split
    · exact h content
    · simp only [relay_bind, relay_pure, relay_mapM, ofMisuse_eq_relay]
      refine bind_congr fun items => congrArg (· >>= _) (congrArg (List.mapM · items.toList) ?_)
      funext item
      cases item with
      | some value => exact h value
      | none => rfl

theorem renderAt_eq_relay (grammar : Value) (format : TokenFormat) (depth : Nat) :
    (s.renderAt grammar format depth v : SessionM Data) = relay (s.renderAt grammar format depth v) := by
  induction depth generalizing v with
  | zero => rfl
  | succ depth ih =>
    simp only [renderAt, relay_ite, relay_bind, relay_pure, relay_mapM, contents_eq_relay, ofMisuse_eq_relay,
      renderSlot_eq_relay s ih]

theorem render_eq_relay (grammar : Value) (format : TokenFormat) :
    (s.render grammar format v : SessionM Data) = relay (s.render grammar format v) := renderAt_eq_relay ..

theorem renderJson_eq_relay (grammar : Value) (format : TokenFormat) :
    (s.renderJson grammar format v : SessionM Text) = relay (s.renderJson grammar format v) := by
  simp only [renderJson, relay_bind, relay_pure, render_eq_relay, ofMisuse_eq_relay]

end Store

/-! ## Walks -/

/-- What a pull comes to in a session, given what it comes to where nobody listens. -/
def Outcome.relay : Outcome → StateM Session Outcome
  | .failure f => Outcome.failure <$> thrown f
  | outcome => return outcome

/-- A pull in a session, given what it comes to where nobody listens. -/
def Pull.relay (p : Pull) : StateM Session Pull := return { p with outcome := ← p.outcome.relay }

theorem Pull.relay_failure_run (asked : List (ObjectId × Bool)) (f : Failure) (after : Walk) (σ : Session) :
    Pull.relay ⟨asked, .failure f, after⟩ σ =
      (⟨asked, .failure (thrown f σ).1, after⟩, (thrown f σ).2) := rfl

theorem attempt_error {α : Type} (failure : Failure) :
    (Tries.attempt (Session.relay (.error failure : Attempt α)) : StateM Session (Attempt α)) =
      Except.error <$> thrown failure := funext fun σ => relay_error_run failure σ

theorem attempt_ok {α : Type} (a : α) :
    (Tries.attempt (Session.relay (.ok a)) : StateM Session (Attempt α)) = pure (.ok a) := rfl

namespace Walk

variable {s : Store} {accept : Accept} {predicate : Option Predicate}

/-- A search in a session, given what it comes to where nobody listens. -/
def Search.relay (r : Search) : StateM Session Search := return { r with found := ← r.found.mapM Outcome.relay }

/-- A predicate that is asked in a session. -/
def relayed (predicate : Option Predicate) : Option (ObjectId → SessionM Bool) :=
  predicate.map fun p id => Session.relay (p id)

theorem ask_eq_relay (id : ObjectId) : ask (relayed predicate) id = Session.relay (ask predicate id) := by
  cases predicate with
  | none => rfl
  | some p =>
    show (Session.relay (p id) >>= fun answer => pure (answer, [(id, answer)])) =
      Session.relay (p id >>= fun answer => pure (answer, [(id, answer)]))
    rw [relay_bind]
    rfl

theorem searchItemsM_eq_relay {enter : ObjectId → StateM Session Search} {tried : ObjectId → Search}
    (h : ∀ id, enter id = (tried id).relay) (owner : Value) (items : List (Item × Cursor)) :
    searchItemsM s accept (relayed predicate) enter owner items =
      (searchItems s accept predicate tried owner items).relay := by
  induction items with
  | nil => rfl
  | cons entry rest ih =>
    obtain ⟨item, after⟩ := entry
    rw [searchItemsM, searchItems_cons, Store.read_eq_relay]
    cases (s.read owner item : Attempt Element) with
    | error failure =>
      rw [attempt_error]
      rfl
    | ok e =>
      rw [attempt_ok, pure_bind]
      dsimp only
      split
      · rfl
      · cases e with
        | token id t => exact ih
        | node id t =>
          dsimp only
          rw [ask_eq_relay]
          rcases (ask predicate id : Attempt (Bool × List (ObjectId × Bool))) with failure | ⟨answer, question⟩
          · rw [attempt_error]
            rfl
          · rw [attempt_ok, pure_bind]
            have hinner : (if answer = true then enter id else pure {} : StateM Session Search) =
                Search.relay (if answer = true then tried id else {}) := by
              cases answer with
              | true => exact h id
              | false => rfl
            dsimp only
            rw [hinner, ih]
            rcases (if answer = true then tried id else {} : Search) with ⟨asked, _ | outcome, stack⟩
            · rfl
            · rfl

theorem searchBelowM_eq_relay (depth : Nat) (id : ObjectId) :
    searchBelowM s accept (relayed predicate) depth id = (searchBelow s accept predicate depth id).relay := by
  induction depth generalizing id with
  | zero => rfl
  | succ depth ih =>
    rw [searchBelowM, searchBelow_succ, Store.openCursor_eq_relay]
    cases (s.openCursor (.object id) : Attempt Cursor) with
    | error failure =>
      rw [attempt_error]
      rfl
    | ok cursor =>
      rw [attempt_ok, pure_bind]
      exact searchItemsM_eq_relay ih ..

theorem searchStackM_eq_relay {enter : ObjectId → StateM Session Search} {tried : ObjectId → Search}
    (h : ∀ id, enter id = (tried id).relay) (stack : List Cursor) :
    searchStackM s accept (relayed predicate) enter stack = (searchStack s accept predicate tried stack).relay := by
  induction stack with
  | nil => rfl
  | cons cursor outer ih =>
    rw [searchStackM, searchStack_cons, searchItemsM_eq_relay h, ih]
    dsimp only
    rcases searchItems s accept predicate tried cursor.node (s.itemsFrom cursor) with ⟨asked, _ | outcome, stack⟩
    · rfl
    · rfl

theorem enterPendingM_eq_relay (w : Walk) :
    w.enterPendingM s (relayed predicate) = (do
      let (question, entered) := w.enterPending s predicate
      return (question, ← Tries.attempt (Session.relay entered)) : StateM Session _) := by
  rw [enterPending_eq, enterPendingM]
  cases w.pending with
  | none => rfl
  | some id =>
    dsimp only
    rw [ask_eq_relay]
    rcases (ask predicate id : Attempt (Bool × List (ObjectId × Bool))) with failure | ⟨answer, question⟩
    · rw [attempt_error]
      dsimp only
      rw [attempt_error]
      simp only [map_eq_pure_bind, bind_assoc, pure_bind]
    · rw [attempt_ok, pure_bind]
      cases answer with
      | true =>
        dsimp only
        rw [Store.openCursor_eq_relay, if_pos rfl, if_pos rfl, ← relay_map]
      | false => rfl

/-- A pull in a session comes to what it comes to where nobody listens, and its failure, if it is a fault of a tree, is
reported. -/
theorem nextM_eq_relay (w : Walk) : w.nextM s (relayed predicate) = (w.next s predicate).relay := by
  rw [nextM, next_eq, enterPendingM_eq_relay]
  rcases w.enterPending s predicate with ⟨question, failure | stack⟩
  · dsimp only
    rw [attempt_error]
    simp only [map_eq_pure_bind, bind_assoc, pure_bind]
    rfl
  · dsimp only
    rw [attempt_ok]
    simp only [pure_bind]
    have henter : ∀ id, (if w.deep = true then searchBelowM s w.accept (relayed predicate) (s.size + 1)
        else fun _ => pure {} : ObjectId → StateM Session Search) id =
          ((if w.deep = true then searchBelow s w.accept predicate (s.size + 1) else fun _ => {}) id).relay := by
      intro id
      cases w.deep with
      | true => exact searchBelowM_eq_relay ..
      | false => rfl
    have hpredicate : (if w.deep = true then relayed predicate else none) =
        relayed (if w.deep = true then predicate else none) := by
      cases w.deep <;> rfl
    rw [hpredicate, searchStackM_eq_relay henter]
    rcases searchStack s w.accept _ _ stack with ⟨asked, _ | outcome, after⟩
    · rfl
    · cases outcome <;> rfl

theorem children_eq_relay (accept : Accept) (v : Value) :
    (children s accept v : SessionM Walk) = Session.relay (children s accept v) := by
  simp only [children, relay_bind, relay_pure, Store.openCursor_eq_relay]

theorem descendants_eq_relay (accept : Accept) (v : Value) :
    (descendants s accept v : SessionM Walk) = Session.relay (descendants s accept v) := by
  simp only [descendants, relay_bind, relay_pure, Store.openCursor_eq_relay]

end Walk

namespace Session

/-- Pulling once: slots are listed if that is called for, and otherwise what the pull comes to is relayed. -/
theorem pullWithin_succ {predicate : Option (Store → Predicate)} {w : Walk} {σ : Session} {p : Pull}
    (hp : w.next σ.store (predicate.map (· σ.store)) = p) (tries : Nat) :
    pullWithin predicate w (tries + 1) σ =
      match p.outcome with
      | .failure (.unlisted id) => (do
        match ← observing (listSlots id) with
        | .ok _ => pullWithin predicate w tries
        | .error failure => return { p with outcome := .failure failure }) σ
      | _ => (.ok (p.relay σ).1, (p.relay σ).2) := by
  have hpredicate : (predicate.map fun p id => relay (p σ.store id)) = Walk.relayed (predicate.map (· σ.store)) := by
    cases predicate <;> rfl
  rw [pullWithin, bind_ok (get_run σ)]
  rw [hpredicate, Walk.nextM_eq_relay, bind_ok (lift_run _ σ), hp]
  obtain ⟨asked, outcome, after⟩ := p
  cases outcome with
  | failure failure =>
    rcases hthrown : thrown failure σ with ⟨failure', τ⟩
    rw [Pull.relay_failure_run, hthrown]
    cases failure with
    | unlisted id =>
      cases hthrown
      rfl
    | _ =>
      cases failure' with
      | unlisted id => cases thrown_unlisted (congrArg Prod.fst hthrown)
      | _ => rfl
  | _ => rfl

end Session

end LosslessSyntax
