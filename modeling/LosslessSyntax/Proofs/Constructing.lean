import LosslessSyntax.Proofs.Making
import LosslessSyntax.Proofs.Relaying

/-!
# Building where faults are reported

The functions that build trees are given in any monad, like those that read them. `Building.relay` is the law for them:
in a session, a function leaves the store that it leaves where nobody listens, comes to the same, and has written nothing
but one report, if it fails by a fault of a tree. `Store.createM_eq_relay` and the like are the law for each function that
builds, up to `Calc.parseValueM_eq_relay`, and `Session.buildWithin_succ` says what a session does with such a function.

Recording a source file stops at a node that cannot be read, and fails by what it met there once the nodes before have
been recorded. That is never a fault of a tree (`Store.nodesFrom_ne_tree`), so there is nothing to report.
-/

namespace LosslessSyntax

open Session

/-! ## Relaying -/

namespace Building

variable {α β : Type}

/-- Building in a session, given what it comes to where nobody listens. -/
def relay (work : Building α) : BuildingT (StateM Session) α := fun s => do
  return (← Tries.attempt (Session.relay (work s).1), (work s).2)

theorem relay_run (work : Building α) (s : Store) (σ : Session) :
    relay work s σ = (((Session.relay (work s).1 σ).1, (work s).2), (Session.relay (work s).1 σ).2) := rfl

theorem relay_bind (work : Building α) (f : α → Building β) :
    relay (work >>= f) = relay work >>= fun a => relay (f a) := by
  funext s σ
  rw [relay_run]
  rcases hwork : work s with ⟨failure | a, t⟩
  · rw [bind_error hwork, relay_error_run]
    have hrelay : relay work s σ = ((.error (thrown failure σ).1, t), (thrown failure σ).2) := by
      rw [relay_run, hwork, relay_error_run]
    simp only [bind, ExceptT.bind, ExceptT.mk, StateT.bind, hrelay, ExceptT.bindCont]
    rfl
  · rw [bind_ok hwork]
    have hrelay : relay work s σ = ((.ok a, t), σ) := by
      rw [relay_run, hwork]
      rfl
    simp only [bind, ExceptT.bind, ExceptT.mk, StateT.bind, hrelay, ExceptT.bindCont]
    rfl

theorem relay_pure (a : α) : relay (pure a) = pure a := rfl

theorem relay_add (o : Object) : relay (add o) = BuildingT.add o := rfl

theorem relay_update (work : Store → Store) : relay (update work) = BuildingT.update work := rfl

theorem relay_read (work : Store → Attempt α) :
    relay (read work) = BuildingT.read fun s => Session.relay (work s) := rfl

theorem relay_change (work : Store → Attempt Store.Change) :
    relay (change work) = BuildingT.change fun s => Session.relay (work s) := by
  funext s σ
  rw [relay_run, change]
  cases hwork : work s with
  | ok c =>
    simp only [BuildingT.change, hwork]
    rfl
  | error failure =>
    rw [relay_error_run]
    simp only [BuildingT.change, Tries.attempt, ExceptT.run, bind, StateT.bind, hwork, relay_error_run]
    rfl

theorem relay_forgetting (work : Building α) : relay (forgetting work) = BuildingT.forgetting (relay work) := by
  funext s σ
  rw [relay_run, forgetting]
  rcases hwork : work s with ⟨failure | a, t⟩
  · simp only [BuildingT.forgetting, bind, StateT.bind, relay_run, hwork, relay_error_run]
    rfl
  · simp only [BuildingT.forgetting, bind, StateT.bind, relay_run, hwork]
    rfl

theorem relay_forM (f : α → Building Unit) (as : List α) : relay (as.forM f) = as.forM fun a => relay (f a) := by
  induction as with
  | nil => rfl
  | cons a as ih => rw [forM_cons, relay_bind, ih]; rfl

theorem relay_mapM (f : α → Building β) (as : List α) : relay (as.mapM f) = as.mapM fun a => relay (f a) := by
  induction as with
  | nil => rfl
  | cons a as ih => simp only [List.mapM_cons, relay_bind, ih, relay_pure]

end Building

/-- Building once: slots are listed if that is called for, and otherwise what building comes to is relayed, and the store
is the one that was built. -/
theorem Session.buildWithin_succ {α : Type} {work : BuildingT (StateM Session) α} {tried : Building α}
    (hwork : work = tried.relay) (tries : Nat) (σ : Session) :
    buildWithin work (tries + 1) σ =
      match tried σ.store with
      | (.error (.unlisted id), _) => (do let _ ← listSlots id; buildWithin work tries) σ
      | (outcome, t) => ((relay outcome σ).1, { (relay outcome σ).2 with store := t }) := by
  rw [buildWithin, bind_ok (get_run σ), bind_ok (lift_run _ σ), hwork, Building.relay_run]
  rcases tried σ.store with ⟨failure | a, t⟩
  · cases failure with
    | unlisted id => rfl
    | misuse m => rfl
    | fault fault =>
      dsimp only
      rw [relay_error_run]
      rcases hthrown : thrown (.fault fault) σ with ⟨failure, τ⟩
      cases failure with
      | unlisted id => cases thrown_unlisted (congrArg Prod.fst hthrown)
      | _ => rfl
  · rfl

namespace Store

variable (s : Store)

/-! ### Checks -/

theorem refuse_eq_relay {α : Type} (cause : Malformation) (kind : Value) :
    (refuse cause kind : SessionM α) = relay (refuse cause kind) := rfl

theorem checkEntries_eq_relay (kind : Value) (slot : Text) (values : List Value) :
    (s.checkEntries kind slot values : SessionM SlotValue) = relay (s.checkEntries kind slot values) := by
  simp only [checkEntries, relay_ite, Session.relay_pure, refuse_eq_relay]

theorem checkSlot_eq_relay (kind : Value) (slot : Text) (arity : Value) (given : SlotValue) :
    (s.checkSlot kind slot arity given : SessionM SlotValue) = relay (s.checkSlot kind slot arity given) := by
  have hmany : (s.checkMany kind slot given : SessionM SlotValue) = relay (s.checkMany kind slot given) := by
    cases given with
    | many values => exact checkEntries_eq_relay ..
    | one v =>
      simp only [checkMany]
      split
      · simp only [relay_ite, Session.relay_pure, refuse_eq_relay]
      · simp only [relay_ite, relay_misuse, checkEntries_eq_relay, refuse_eq_relay]
  have hone : (s.checkOne kind slot given : SessionM SlotValue) = relay (s.checkOne kind slot given) := by
    cases given with
    | many values => rfl
    | one v => simp only [checkOne, relay_ite, Session.relay_pure, refuse_eq_relay]
  simp only [checkSlot, relay_ite, hmany, hone]

theorem checkChild_eq_relay (kind : Value) (slot : Text) (child : Value) :
    (s.checkChild kind slot child : SessionM Unit) = relay (s.checkChild kind slot child) := by
  unfold checkChild
  split
  · simp only [relay_ite, Session.relay_pure, refuse_eq_relay, malformed_eq_relay]
  · rfl

theorem checkSlotChildren_eq_relay (kind : Value) (slot : Text) (seen children : List Value) :
    (s.checkSlotChildren kind slot seen children : SessionM (List Value)) =
      relay (s.checkSlotChildren kind slot seen children) := by
  induction children generalizing seen with
  | nil => rfl
  | cons child rest ih =>
    simp only [checkSlotChildren, relay_ite, Session.relay_bind, refuse_eq_relay, checkChild_eq_relay, ih]

theorem attachable_eq_relay (p : Plan) (slots : ObjectId) :
    (s.attachable p slots : SessionM (List Value)) = relay (s.attachable p slots) := by
  simp only [attachable, Session.relay_bind, Session.relay_pure, relay_foldlM, ofMisuse_eq_relay,
    checkSlotChildren_eq_relay]

theorem link_eq_relay (parent : ObjectId) (child : Value) :
    (s.link parent child : SessionM Change) = relay (s.link parent child) := by
  cases child <;> rfl

theorem planFor_eq_relay (variant : Value) (input : Input) :
    (s.planFor variant input : SessionM Plan) = relay (s.planFor variant input) := by
  simp only [planFor, Session.relay_bind, relay_ite, ofMisuse_eq_relay]
  refine bind_congr fun kind => bind_congr fun layout => ?_
  split
  · rfl
  · split
    · rfl
    · simp only [Session.relay_bind, Session.relay_pure, relay_mapM, slotNamesOf_eq_relay]

/-! ### Steps -/

theorem placeM_eq_relay (checked : SlotValue) : placeM checked = (place checked).relay := by
  cases checked <;> rfl

theorem fillSlotM_eq_relay (p : Plan) (input : Input) (record : ObjectId) (slot : Text) (arity : Value) :
    fillSlotM p input record slot arity = (fillSlot p input record slot arity).relay := by
  simp only [fillSlotM, fillSlot_def, Building.relay_bind, Building.relay_read, Building.relay_change, placeM_eq_relay,
    checkSlot_eq_relay, ofMisuse_eq_relay]

theorem makeSlotsM_eq_relay (p : Plan) (input : Input) : makeSlotsM p input = (makeSlots p input).relay := by
  rw [makeSlots_def, makeSlotsM]
  cases unknownSlot? p input with
  | some name => rfl
  | none =>
    simp only [Building.relay_bind, Building.relay_add, Building.relay_update, Building.relay_pure,
      Building.relay_forM, fillSlotM_eq_relay]

theorem attachM_eq_relay (p : Plan) (node : Node) : attachM p node = (attach p node).relay := by
  simp only [attachM, attach_def, Building.relay_bind, Building.relay_read, Building.relay_add, Building.relay_change,
    Building.relay_pure, Building.relay_forM, attachable_eq_relay, link_eq_relay]

theorem createM_eq_relay (v : Variant) (input : Input) : createM v input = (create v input).relay := by
  rw [create_def, createM]
  split
  · rfl
  · simp only [Building.relay_forgetting, Building.relay_bind, makeSlotsM_eq_relay, attachM_eq_relay]

theorem addFileByM_eq_relay (p : Plan) (variant : Variant) (assigned : Members Value) (kind : Value) (source : Source)
    (input : Input) :
    addFileByM p variant assigned kind source input = (addFileBy p variant assigned kind source input).relay := by
  rw [addFileBy_def, addFileByM]
  simp only [Building.relay_forgetting, Building.relay_bind, Building.relay_read, makeSlotsM_eq_relay,
    attachM_eq_relay]
  refine congrArg BuildingT.forgetting (bind_congr fun slots => congrArg (· >>= _) (congrArg BuildingT.read ?_))
  -- What is left is to look for the end of the file.
  funext s
  cases s.endOfFileToken? kind slots <;> rfl

theorem addFileM_eq_relay (v : Variant) (kind : Value) (source : Source) (input : Input) :
    addFileM v kind source input = (addFile v kind source input).relay := addFileByM_eq_relay ..

theorem addOtherFileM_eq_relay (variant kind : Value) (source : Source) (input : Input) :
    addOtherFileM variant kind source input = (addOtherFile variant kind source input).relay := by
  simp only [addOtherFileM, addOtherFile_def, Building.relay_bind, Building.relay_read, planFor_eq_relay,
    ofMisuse_eq_relay, addFileByM_eq_relay]

end Store

/-! ### Recording -/

/-- What fails by no fault of a tree. -/
def Attempt.Unbroken {α : Type} (x : Attempt α) : Prop := ∀ fault, x ≠ .error (.ofTree fault)

namespace Attempt

variable {α β : Type}

theorem Unbroken.bind {x : Attempt α} {f : α → Attempt β} (hx : x.Unbroken) (hf : ∀ a, (f a).Unbroken) :
    (x >>= f).Unbroken := by
  cases x with
  | ok a => exact hf a
  | error failure => exact fun fault h => hx fault (by cases h; rfl)

theorem unbroken_ok (a : α) : Unbroken (.ok a) := fun _ h => by cases h

theorem unbroken_misuse (m : Misuse) : Unbroken (.error (.misuse m) : Attempt α) := fun _ h => by cases h

theorem unbroken_ofMisuse (x : Except Misuse α) : Unbroken (ofMisuse x) := by
  cases x with
  | ok a => exact unbroken_ok a
  | error m => exact unbroken_misuse m

theorem unbroken_mapM {f : α → Attempt β} (h : ∀ a, (f a).Unbroken) (as : List α) : (as.mapM f).Unbroken := by
  induction as with
  | nil => exact unbroken_ok []
  | cons a as ih =>
    rw [List.mapM_cons]
    exact (h a).bind fun b => ih.bind fun bs => unbroken_ok _

end Attempt

namespace Store

variable {s : Store}

theorem unbroken_contents (v : Value) : (s.contents v).Unbroken := by
  have hnamesOf : ∀ v, (s.slotNamesOf v).Unbroken := by
    intro v
    unfold slotNamesOf
    repeat' split
    all_goals exact fun _ h => by cases h
  have hnames : (s.slotNames v).Unbroken := by
    unfold slotNames
    split
    · exact Attempt.unbroken_ok _
    · exact (Attempt.unbroken_ofMisuse _).bind hnamesOf
  exact hnames.bind fun names => Attempt.unbroken_mapM (fun slot => (Attempt.unbroken_ofMisuse _).bind fun _ =>
    Attempt.unbroken_ok _) names

theorem unbroken_childNodes (id : ObjectId) : (s.childNodes id).Unbroken :=
  (unbroken_contents _).bind fun slots => (Attempt.unbroken_mapM (fun _ => Attempt.unbroken_ofMisuse _) slots).bind
    fun _ => Attempt.unbroken_ok _

/-- Going through the nodes of a tree meets no fault of it. -/
theorem nodesFrom_ne_tree (depth : Nat) (id : ObjectId) (fault : TreeFault) :
    (s.nodesFrom depth id).2 ≠ some (.ofTree fault) := by
  induction depth generalizing id with
  | zero => exact fun h => by cases h
  | succ depth ih =>
    cases hchildren : s.childNodes id with
    | error failure =>
      rw [nodesFrom, hchildren]
      intro h
      cases h
      exact unbroken_childNodes id fault hchildren
    | ok children =>
      rw [nodesFrom_succ hchildren]
      clear hchildren
      induction children with
      | nil => exact fun h => by cases h
      | cons child rest ihrest =>
        rw [List.foldr_cons, gather]
        split
        · exact ihrest
        · exact ih child

theorem recordRootsM_eq_relay (root : ObjectId) : recordRootsM root = (recordRoots root).relay := by
  funext s σ
  rw [Building.relay_run, recordRoots_def]
  have hno := fun fault => nodesFrom_ne_tree (s := s) (s.size + 1) root fault
  rw [recordRootsM]
  show (((s.nodesOf root).2.elim _ _, _), σ) = _
  rcases hfailure : (s.nodesOf root).2 with _ | ⟨fault⟩ | m | id
  · rfl
  · cases fault with
    | tree fault => exact absurd hfailure (hno fault)
    | _ => rfl
  · rfl
  · rfl

theorem createSourceFileM_eq_relay (g : Grammar) (source : Source) (input : Input) :
    createSourceFileM g source input = (createSourceFile g source input).relay := by
  simp only [createSourceFileM, createSourceFile_def, Building.relay_bind, Building.relay_pure, addFileM_eq_relay,
    recordRootsM_eq_relay]

end Store

/-! ### The calculator language -/

namespace Calc

theorem makeM_eq_relay (k : NodeKind) (slots : Members SlotValue) : makeM k slots = (make k slots).relay := by
  rw [makeM, Store.createM_eq_relay]
  exact (Building.relay_bind (Store.create k.variant (.ofMembers slots)) fun id => pure (Value.object id)).symm

theorem plantExprM_eq_relay (e : Expr ObjectId) : plantExprM e = (plantExpr e).relay := by
  induction e with
  | missing => rfl
  | number value => exact makeM_eq_relay ..
  | name name => exact makeM_eq_relay ..
  | paren opening inner closing ih =>
    simp only [plantExprM, ih, makeM_eq_relay]
    exact (Building.relay_bind (plantExpr inner) _).symm
  | binary left operator right ihleft ihright =>
    simp only [plantExprM, ihleft, ihright, makeM_eq_relay, ← Building.relay_bind]
    rfl

theorem plantStatementM_eq_relay (st : Statement ObjectId) : plantStatementM st = (plantStatement st).relay := by
  cases st with
  | skipped token => exact makeM_eq_relay ..
  | assignment name equals value semicolon =>
    simp only [plantStatementM, plantExprM_eq_relay, makeM_eq_relay, ← Building.relay_bind]
    rfl
  | expression e semicolon =>
    simp only [plantStatementM, plantExprM_eq_relay, makeM_eq_relay, ← Building.relay_bind]
    rfl

theorem plantM_eq_relay (source : Source) (p : Program ObjectId) : plantM source p = (plant source p).relay := by
  have hstatements : (plantStatementM : Statement ObjectId → BuildingT (StateM Session) Value) =
      fun st => (plantStatement st).relay := funext plantStatementM_eq_relay
  simp only [plantM, hstatements, ← Building.relay_mapM, Store.createSourceFileM_eq_relay, ← Building.relay_bind]
  rfl

theorem parseM_eq_relay (source : Source) : parseM source = (parse source).relay := by
  have hparse : parse source = (do
      let lexing := lex source.text
      let size ← Building.read fun s => return s.size
      Building.update fun s => s.addAll (lexing.toList.map fun l => .token l.token)
      plant source (Program.ofKinds size (lexing.lexemes.map Lexeme.kind))) := rfl
  simp only [parseM, hparse, Building.relay_bind, Building.relay_read, Building.relay_update, Session.relay_pure,
    plantM_eq_relay]

theorem parseValueM_eq_relay (v : Value) : parseValueM v = (parseValue v).relay := by
  have hblank : ∀ v : Value, (do
      let endOfFile ← BuildingT.add (.token (← BuildingT.read fun s => Attempt.ofMisuse (endOfBlanks s v)))
      let root ← plantM .empty { statements := [], endOfFile }
      BuildingT.change fun s => Attempt.ofMisuse (s.assignment root "source" v)
      return root : BuildingT (StateM Session) ObjectId) = Building.relay (do
        let endOfFile ← Building.add (.token (← Building.read fun s => Attempt.ofMisuse (endOfBlanks s v)))
        let root ← plant .empty { statements := [], endOfFile }
        Building.change fun s => Attempt.ofMisuse (s.assignment root "source" v)
        return root) := by
    intro v
    simp only [Building.relay_bind, Building.relay_read, Building.relay_add, Building.relay_change,
      Building.relay_pure, ofMisuse_eq_relay, plantM_eq_relay]
  cases v with
  | text t =>
    rw [parseValue, parseValueM, parseValueM]
    cases Source.ofText? t with
    | none => rfl
    | some source => exact parseM_eq_relay source
  | _ => exact hblank _

end Calc

end LosslessSyntax
