import LosslessSyntax.Proofs.Containment
import LosslessSyntax.Proofs.Numbering

/-!
# Loggers

A logger is created for tags, or cloned from another, and then it is tagged and writes lines. A history of such deeds
says which loggers there are (`History.loggers`) and what each of them has been given (`History.given`), and a session
after the history agrees with it (`Session.Logs.isolated`). Loggers that are created are the same if and only if they
are for the same service, and a clone is always a new one. The lines of a logger show what it has been given, overlaid
by what is given with the line, and nothing that is done with other loggers changes them.

* `Members.listsAs_latest`: what is set last stands where the name was first set, in the order of a record.
* `Store.setTag_run`: what becomes of the tags of a logger when one is set.
* `Accounts`: what a history says of a store. Each deed keeps to it (`Accounts.create`, `Accounts.clone`,
  `Accounts.tag`).

Tags are set like the members of any record, so the name of the base is not free. A text under this name is dropped
(`Session.not_writesWith_base`), unless the logger was made with a tag of this name.
-/

namespace LosslessSyntax

/-! ## Overlaid members -/

namespace Members

variable {α : Type} {given m : Members α} {name : Text} {value : α}

/-- What is left of members that were given one after the other: each name in the place where it was first given, with
the value that it was given last. -/
def latest (given : Members α) : Members α :=
  given.names.eraseDups.filterMap fun name => (get? given.reverse name).map fun value => (name, value)

theorem get?_reverse_concat (given : Members α) (name : Text) (value : α) (other : Text) :
    get? (given ++ [(name, value)]).reverse other = if other = name then some value else get? given.reverse other := by
  rw [List.reverse_append, List.reverse_singleton, List.singleton_append, get?_cons]

theorem has_iff_mem_names : m.has name = true ↔ name ∈ m.names := by
  simp only [has, names, List.any_eq_true, beq_iff_eq, List.mem_map]

theorem eraseDups_names_concat (given : Members α) (name : Text) (value : α) :
    (names (given ++ [(name, value)])).eraseDups =
      given.names.eraseDups ++ if given.has name then [] else [name] := by
  rw [names, List.map_append, List.map_singleton, List.eraseDups_append]
  congr 1
  split
  · rename_i h
    rw [has_iff_mem_names] at h
    rw [List.removeAll, List.filter_cons_of_neg (by simpa [names] using h)]
    rfl
  · rename_i h
    rw [has_iff_mem_names] at h
    rw [List.removeAll, List.filter_cons_of_pos (by simpa [names] using h)]
    rfl

theorem isSome_get?_reverse (given : Members α) (name : Text) : (get? given.reverse name).isSome = given.has name := by
  rw [isSome_get?, has, List.any_reverse, has]

/-- A name that was given before keeps its place. -/
theorem latest_concat_of_has (h : given.has name = true) (value : α) :
    latest (given ++ [(name, value)]) =
      given.latest.map fun entry => if entry.1 == name then (name, value) else entry := by
  rw [latest, eraseDups_names_concat, if_pos h, List.append_nil, latest, List.map_filterMap]
  refine List.filterMap_congr fun other hother => ?_
  have hthere : given.has other = true := has_iff_mem_names.mpr (List.mem_eraseDups.mp hother)
  rw [← isSome_get?_reverse] at hthere
  obtain ⟨old, hold⟩ := Option.isSome_iff_exists.mp hthere
  rw [get?_reverse_concat, hold]
  by_cases heq : other = name
  · simp [heq]
  · simp [heq]

/-- A new name comes behind all others. -/
theorem latest_concat_of_not_has (h : given.has name = false) (value : α) :
    latest (given ++ [(name, value)]) = given.latest ++ [(name, value)] := by
  rw [latest, eraseDups_names_concat, if_neg (by rw [h]; exact Bool.false_ne_true), List.filterMap_append, latest]
  congr 1
  · refine List.filterMap_congr fun other hother => ?_
    have hne : other ≠ name := by
      rintro rfl
      rw [List.mem_eraseDups, ← has_iff_mem_names, h] at hother
      cases hother
    rw [get?_reverse_concat, if_neg hne]
  · rw [List.filterMap_cons, get?_reverse_concat, if_pos rfl]
    rfl

theorem ofList_concat (given : Members α) (name : Text) (value : α) :
    ofList (given ++ [(name, value)]) = (ofList given).set name value := by
  rw [ofList, merge, List.foldl_append]
  rfl

theorem merge_ofList (given other : Members α) : (ofList given).merge other = ofList (given ++ other) :=
  (List.foldl_append ..).symm

theorem has_ofList (given : Members α) (name : Text) : (ofList given).has name = given.has name := by
  rw [← isSome_get?, ← isSome_get?_reverse]
  induction given using List.reverseRecOn with
  | nil => rfl
  | append_singleton given entry ih =>
    rw [ofList_concat, get?_set, get?_reverse_concat]
    split
    · rfl
    · exact ih

/-- The order of a record does not depend on what stands under its names. -/
theorem ListsAs.replace (h : ListsAs given m) (name : Text) (value : α) :
    ListsAs (given.map fun entry => if entry.1 == name then (name, value) else entry)
      (m.map fun entry => if entry.1 == name then (name, value) else entry) := by
  have hname : ∀ entry : Text × α, (if entry.1 == name then (name, value) else entry).1 = entry.1 := by
    intro entry
    split
    · rename_i heq
      exact (eq_of_beq heq).symm
    · rfl
  refine ⟨h.perm.map _, ?_, ?_⟩
  · rw [List.pairwise_map]
    refine h.indices.imp fun {a b} hab => ?_
    rw [hname a, hname b]
    exact hab
  · rw [List.filter_map, List.filter_map]
    have hcomp : (fun entry : Text × α => (index? entry.1).isNone) ∘
        (fun entry => if entry.1 == name then (name, value) else entry) = fun entry => (index? entry.1).isNone := by
      funext entry
      rw [Function.comp_apply, hname]
    rw [hcomp, h.others]

theorem ListsAs.filter (h : ListsAs given m) (keep : Text × α → Bool) :
    ListsAs (given.filter keep) (m.filter keep) where
  perm := h.perm.filter keep
  indices := h.indices.filter keep
  others := by rw [List.filter_comm, h.others, List.filter_comm]

/-- Members that are set one after the other are listed in the order of a record, each under the name that it was first
given, with the value that it was given last. -/
theorem listsAs_latest (given : Members α) : ListsAs given.latest (ofList given) := by
  induction given using List.reverseRecOn with
  | nil => exact ⟨.refl _, .nil, rfl⟩
  | append_singleton given entry ih =>
    obtain ⟨name, value⟩ := entry
    rw [ofList_concat, set, has_ofList]
    split
    · rename_i h
      rw [latest_concat_of_has h]
      exact ih.replace name value
    · rename_i h
      rw [latest_concat_of_not_has (Bool.eq_false_iff.mpr h)]
      exact ih.insert name value

/-- Setting a member of a record leaves its base: under the name of the base there is a member already, or the value is
neither an object nor an operation nor `null`. -/
def KeepsBase (m : Members Value) (name : Text) (value : Value) : Prop :=
  name = baseName → m.has name = false → value ≠ .null ∧ value.object? = none ∧ value.isOperation = false

end Members

/-- What a line shows of tags that were given one after the other: a record of all of them, without those that have no
value. -/
def LogLine.overlaid (given : Members Data) : Members Data :=
  (Members.ofList given).filter fun entry => !entry.2.isMissing

theorem LogLine.shownTags_ofList (given : Members Value) (extra : Members Data) :
    shownTags ((Members.ofList given).map fun entry => (entry.1, .leaf entry.2)) extra =
      overlaid (given.map (Prod.map id .leaf) ++ extra) := by
  rw [overlaid, ← Members.merge_ofList, Members.ofList_map]
  rfl

/-! ## Tags -/

namespace Store

variable {s t : Store} {logger : ObjectId} {name : Text} {value : Value} {m : Members Value}

/-- The ground of records is in its place and extends nothing. -/
structure HasGround (s : Store) : Prop where
  object : s.object? Ground.record.id = some (.ground .record)
  base : s.base? Ground.record.id = none

theorem HasGround.expands (h : s.HasGround) (ht : s.Expands t) : t.HasGround where
  object := by
    obtain ⟨values, hobject⟩ := ht.object? h.object
    rw [hobject, Object.restacked_eq fun _ => rfl]
  base := (ht.base? (lt_size_of_object? h.object)).trans h.base

theorem modify_push (cells : Array Cell) (c : Cell) (change : Cell → Cell) :
    (cells.push c).modify cells.size change = cells.push (change c) := by
  refine Array.ext_getElem? fun i => ?_
  rw [Array.getElem?_modify, Array.getElem?_push, Array.getElem?_push]
  by_cases h : cells.size = i
  · simp [h]
  · simp [h, Ne.symm h]

/-- A store with one more object, beside which nothing is kept yet. -/
structure Adds (s : Store) (c : Cell) (t : Store) : Prop where
  cells : t.cells = s.cells.push c
  kept : t.kept = s.kept

namespace Adds

variable {c : Cell}

theorem add (s : Store) (o : Object) : s.Adds (.ofObject o) (s.add o).2 := ⟨rfl, rfl⟩

theorem modify (h : s.Adds c t) (change : Cell → Cell) : s.Adds (change c) (t.modify s.size change) where
  cells := by
    show t.cells.modify s.cells.size change = _
    rw [h.cells, modify_push]
  kept := h.kept

theorem cell? (h : s.Adds c t) : t.cell? s.size = some c := by
  rw [Store.cell?, h.cells]
  exact Array.getElem?_push_size

theorem cell?_old (h : s.Adds c t) {id : ObjectId} (hid : id < s.size) : t.cell? id = s.cell? id := by
  rw [Store.cell?, h.cells, Array.getElem?_push, if_neg]
  · rfl
  · exact Nat.ne_of_lt hid

/-- Without the object, the store is as it was. -/
theorem take (h : s.Adds c t) : t.take s.size = s := by
  obtain ⟨cells, kept, hnew⟩ := s
  simp only [Store.take, h.kept, h.cells, Store.mk.injEq, size]
  refine ⟨by simp, funext fun id => ?_⟩
  split
  · rfl
  · rename_i hid
    exact (hnew id (Nat.not_lt.mp hid)).symm

end Adds

/-- A member of a new record is its own or one of the ground of records. -/
theorem Adds.seek (h : s.Adds (.ofObject (.ofMembers m)) t) (hs : s.HasGround) (name : Text) :
    t.seek s.size name = ((m.get? name).map fun value => (s.size, value)).or
      ((Ground.record.members.get? name).map fun value => (Ground.record.id, value)) := by
  have hground : Ground.record.id < s.size := lt_size_of_object? hs.object
  have hsize : t.size = s.size + 1 := by rw [size, h.cells, Array.size_push]; rfl
  have hobject : t.object? s.size = some (.ofMembers m) := by rw [object?, h.cell?]; rfl
  have hbase : t.base? s.size = some Ground.record.id := by rw [base?, h.cell?]; rfl
  have hobject0 : t.object? Ground.record.id = some (.ground .record) := by
    rw [object?, h.cell?_old hground]; exact hs.object
  have hbase0 : t.base? Ground.record.id = none := by
    rw [base?, h.cell?_old hground]; exact hs.base
  have hown : (Object.ofMembers m).own? name = m.get? name := rfl
  have hown0 : (Object.ground .record).own? name = Ground.record.members.get? name := by
    show (Ground.record.members.get? name).or _ = _
    cases Ground.record.members.get? name <;> rfl
  rw [Store.seek, hsize, seekFrom_succ, hobject, Option.bind_some, hown]
  cases m.get? name with
  | some value => rfl
  | none =>
    rw [hbase]
    show t.seekFrom name (s.size + 1) Ground.record.id = _
    rw [seekFrom_succ, hobject0, Option.bind_some, hown0, hbase0]
    cases Ground.record.members.get? name <;> rfl

/-- Where a member of a new record is set. The ground of records has setters for the name of the base only, and an own
member comes first. -/
theorem Adds.target (h : s.Adds (.ofObject (.ofMembers m)) t) (hs : s.HasGround) (name : Text) :
    t.target s.size name = if name = baseName ∧ m.has name = false then .base else .member s.size := by
  have hground : Ground.record.id < s.size := lt_size_of_object? hs.object
  have hobject : t.object? s.size = some (.ofMembers m) := by rw [object?, h.cell?]; rfl
  have hobject0 : t.object? Ground.record.id = some (.ground .record) := by
    rw [object?, h.cell?_old hground]; exact hs.object
  rw [Store.target, h.seek hs, ← Members.isSome_get?]
  cases hget : m.get? name with
  | some value => simp [hobject, Object.ofMembers, Object.isSealed]
  | none =>
    cases hground : Ground.record.members.get? name with
    | some value => simp [hobject0]
    | none =>
      have hne : name ≠ baseName := by
        rintro rfl
        cases hground
      simp [hne]

/-- A logger that answers to all its operations. -/
def Answers (s : Store) (logger : ObjectId) : Prop :=
  ∃ m, s.object? logger = some (.logger m) ∧
    ∀ name ∈ loggerOperations, ∃ operation, Members.get? m name = some (.operation operation)

theorem Answers.loggerFor (h : s.Answers logger) (hname : name ∈ loggerOperations) :
    s.loggerFor (.object logger) name = .ok ⟨logger, (s.kept logger).tags⟩ := by
  obtain ⟨m, hobject, hall⟩ := h
  obtain ⟨operation, hget⟩ := hall name hname
  have hown : (Object.logger m).own? name = some (.operation operation) := hget
  have hseek : s.seek logger name = some (logger, .operation operation) := by
    rw [seek, seekFrom_succ, hobject, Option.bind_some, hown]
  simp only [Store.loggerFor, hseek, hobject]
  rfl

theorem Answers.lt_size (h : s.Answers logger) : logger < s.size := by
  obtain ⟨m, hobject, -⟩ := h
  exact lt_size_of_object? hobject

theorem Answers.expands (h : s.Answers logger) (ht : s.Expands t) : t.Answers logger := by
  obtain ⟨m, hobject, hall⟩ := h
  obtain ⟨values, hobject'⟩ := ht.object? hobject
  rw [Object.restacked_eq fun _ => rfl] at hobject'
  exact ⟨m, hobject', hall⟩

/-- What becomes of a new record when a member of it is set. A value under the name of the base that is no base changes
nothing, unless there is such a member already. -/
theorem Adds.assignTo (h : s.Adds (.ofObject (.ofMembers m)) t) (hs : s.HasGround) (hkeeps : m.KeepsBase name value) :
    ∃ u, t.assignTo s.size name value = .ok u ∧
      s.Adds (.ofObject (.ofMembers (if name = baseName ∧ m.has name = false then m else m.set name value))) u := by
  have hobject : t.object? s.size = some (.ofMembers m) := by rw [object?, h.cell?]; rfl
  rw [Store.assignTo, assignment, h.target hs]
  by_cases hbase : name = baseName ∧ m.has name = false
  · have hnone : t.setBase s.size value = .ok ⟨s.size, fun c => c⟩ := by
      obtain ⟨hnull, hid, hoperation⟩ := hkeeps hbase.1 hbase.2
      cases value with
      | null => exact absurd rfl hnull
      | object id => cases hid
      | operation name => cases hoperation
      | _ => rfl
    rw [if_pos hbase, if_pos hbase]
    exact ⟨_, congrArg (Except.map t.apply) hnone, h.modify fun c => c⟩
  · rw [if_neg hbase, if_neg hbase]
    simp only [hobject]
    exact ⟨_, rfl, h.modify fun c => { c with object := .ofMembers (m.set name value) }⟩

/-- The tags of a logger after one is set. They are set in a record that is there for this time only. -/
theorem setTag_run (hs : s.HasGround) (h : s.Answers logger) (htags : (s.kept logger).tags = { members := m })
    (hkeeps : m.KeepsBase name value) :
    s.setTag (.object logger) name value = .ok (s.keep logger ({ · with
      tags := { members := if name = baseName ∧ m.has name = false then m else m.set name value } })) := by
  let scratch := (s.add (.ofMembers m)).2.modify s.size fun c => { c with base := some Ground.record.id }
  have hscratch : s.Adds (.ofObject (.ofMembers m)) scratch :=
    (Adds.add s (.ofMembers m)).modify fun c => { c with base := some Ground.record.id }
  obtain ⟨t, ht, hnew⟩ := hscratch.assignTo hs hkeeps
  rw [setTag, h.loggerFor (by decide), htags]
  show (scratch.assignTo s.size name value >>= _) = _
  rw [ht]
  show Except.ok ((t.take s.size).keep logger ({ · with tags := (t.cell? s.size).elim _ _ })) = _
  rw [hnew.take, hnew.cell?]
  rfl

/-! ### New loggers -/

theorem get?_operationMembers {names : List Text} (h : name ∈ names) :
    (operationMembers names).get? name = some (.operation name) := by
  induction names with
  | nil => cases h
  | cons first rest ih =>
    show Members.get? ((first, .operation first) :: operationMembers rest) name = _
    rw [Members.get?_cons]
    split
    · rename_i heq
      rw [heq]
    · rename_i hne
      exact ih ((List.mem_cons.mp h).resolve_left hne)

theorem answers_addLogger (s : Store) (tags : Members Value) : (s.addLogger tags).2.Answers s.size := by
  refine ⟨operationMembers loggerOperations, ?_, fun name hname => ⟨name, get?_operationMembers hname⟩⟩
  show (s.add _).2.object? s.size = _
  rw [object?, cell?_add, if_pos rfl]
  rfl

theorem tags_addLogger (s : Store) (tags : Members Value) :
    ((s.addLogger tags).2.kept s.size).tags = { members := tags } := by
  rw [addLogger_snd, kept_keep, if_pos ⟨rfl, by rw [size_add]; exact Nat.lt_succ_self _⟩]

theorem kept_addLogger (tags : Members Value) {id : ObjectId} (hid : id < s.size) :
    (s.addLogger tags).2.kept id = s.kept id := by
  rw [addLogger_snd, kept_keep, if_neg fun h => Nat.ne_of_lt hid h.1]
  rfl

-- A logger is a new object with tags kept beside it, and those are no part of the objects.
theorem HasGround.addLogger (h : s.HasGround) (tags : Members Value) : (s.addLogger tags).2.HasGround := by
  have hadded := h.expands ((Expands.refl s).add (.logger (operationMembers loggerOperations)))
  exact ⟨hadded.object, hadded.base⟩

theorem Answers.addLogger (h : s.Answers logger) (tags : Members Value) : (s.addLogger tags).2.Answers logger := by
  obtain ⟨m, hobject, hall⟩ := h.expands ((Expands.refl s).add (.logger (operationMembers loggerOperations)))
  exact ⟨m, hobject, hall⟩

end Store

/-! ## Deeds -/

/-- What is done with loggers. One that is created is for the members of some tags and the service that they name, and
it may have been there before. -/
inductive Deed where
  | create (service : Option Text) (tags : Members Value) (logger : ObjectId)
  | clone (original copy : ObjectId)
  | tag (logger : ObjectId) (name : Text) (value : Value)
  | write (logger : ObjectId)

namespace Deed

/-- The logger that comes of a deed. -/
def logger? : Deed → Option ObjectId
  | .create _ _ logger => some logger
  | .clone _ copy => some copy
  | .tag .. | .write _ => none

/-- The service that a logger is created for. -/
def service? : Deed → Option Text
  | .create service _ _ => service
  | .clone .. | .tag .. | .write _ => none

/-- The logger that a tag is for. -/
def tagged? : Deed → Option ObjectId
  | .tag logger _ _ => some logger
  | .create .. | .clone .. | .write _ => none

/-- A deed of which a logger comes tags none. -/
theorem tagged?_eq_none {deed : Deed} {logger : ObjectId} (h : deed.logger? = some logger) : deed.tagged? = none := by
  cases deed with
  | create | clone => rfl
  | tag | write => cases h

theorem eq_create {deed : Deed} {service : Text} {logger : ObjectId} (hservice : deed.service? = some service)
    (hlogger : deed.logger? = some logger) : ∃ tags, deed = .create (some service) tags logger := by
  cases deed with
  | create => cases hservice; cases hlogger; exact ⟨_, rfl⟩
  | clone | tag | write => cases hservice

/-- How the loggers of two deeds are told apart: those that are created are the same if and only if they are for the
same service, and a clone is the logger of no other deed. -/
def Apart : Deed → Deed → Prop
  | .create service _ logger, .create service' _ logger' => logger = logger' ↔ service.isSome ∧ service = service'
  | .create _ _ logger, .clone _ copy => logger ≠ copy
  | .clone _ copy, .create _ _ logger => copy ≠ logger
  | .clone _ copy, .clone _ copy' => copy ≠ copy'
  | _, _ => True

end Deed

/-- Deeds, the latest first. -/
abbrev History := List Deed

namespace History

/-- The loggers that there are. -/
def loggers (history : History) : List ObjectId := history.filterMap Deed.logger?

/-- What a logger has been given: the tags that it was created with, or all that its original had been given when it was
cloned, and then its own tags in order. A tag under the name of the base is taken only if there is one already. -/
def given : History → ObjectId → Members Value
  | [], _ => []
  | .create _ tags logger :: before, id => if id = logger ∧ id ∉ loggers before then tags else given before id
  | .clone original copy :: before, id =>
    if id = copy ∧ id ∉ loggers before then given before original else given before id
  | .tag logger name value :: before, id =>
    if id = logger ∧ (name = baseName → (given before id).has name = true) then given before id ++ [(name, value)]
    else given before id
  | .write _ :: before, id => given before id

variable {history : History} {deed : Deed} {logger : ObjectId}

theorem mem_loggers : logger ∈ history.loggers ↔ ∃ deed ∈ history, deed.logger? = some logger := List.mem_filterMap

theorem loggers_cons (h : deed.logger? = some logger) : loggers (deed :: history) = logger :: history.loggers :=
  List.filterMap_cons_some h

/-- What is done with other loggers gives a logger nothing. -/
theorem given_cons (hold : logger ∈ history.loggers) (hother : deed.tagged? ≠ some logger) :
    given (deed :: history) logger = history.given logger := by
  cases deed with
  | create service tags created => exact if_neg fun h => h.2 hold
  | clone original copy => exact if_neg fun h => h.2 hold
  | tag tagged name value => exact if_neg fun h => hother (congrArg some h.1.symm)
  | write writer => rfl

end History

/-! ## Accounts -/

open History

/-- What a history says of the services that have a logger, and of the loggers in a store. Services have the loggers
that were created for them, and those are the loggers of no other deeds. -/
structure Accounts (history : History) (services : List (Text × ObjectId)) (s : Store) : Prop where
  ground : s.HasGround
  apart : history.Pairwise Deed.Apart
  answers : ∀ {logger}, logger ∈ history.loggers → s.Answers logger
  tags : ∀ {logger}, logger ∈ history.loggers → (s.kept logger).tags = { members := .ofList (history.given logger) }
  registered : ∀ {service logger}, services.lookup service = some logger ↔
    ∃ tags, Deed.create (some service) tags logger ∈ history
  served : ∀ {service logger deed}, services.lookup service = some logger → deed ∈ history →
    deed.logger? = some logger → ∃ tags, deed = .create (some service) tags logger

namespace Accounts

variable {history : History} {services : List (Text × ObjectId)} {s t : Store} {deed : Deed} {logger : ObjectId}

theorem lt_size (h : Accounts history services s) (hlogger : logger ∈ history.loggers) : logger < s.size :=
  (h.answers hlogger).lt_size

theorem size_not_mem (h : Accounts history services s) : s.size ∉ history.loggers := fun hmem =>
  absurd (h.lt_size hmem) (Nat.lt_irrefl _)

theorem ne_size (h : Accounts history services s) (hdeed : deed ∈ history) (hlogger : deed.logger? = some logger) :
    s.size ≠ logger :=
  Nat.ne_of_gt (h.lt_size (mem_loggers.mpr ⟨deed, hdeed, hlogger⟩))

/-- A new logger is told apart from all others, if there is none for its service yet. -/
theorem apart_new (h : Accounts history services s) (hnew : deed.logger? = some s.size)
    (hservice : ∀ service ∈ deed.service?, services.lookup service = none) {earlier : Deed}
    (hearlier : earlier ∈ history) : deed.Apart earlier := by
  cases deed with
  | tag | write => cases hnew
  | create service tags logger =>
    cases hnew
    cases earlier with
    | tag | write => exact trivial
    | clone original copy => exact h.ne_size hearlier rfl
    | create service' tags' logger' =>
      refine iff_of_false (h.ne_size hearlier rfl) ?_
      rintro ⟨hsome, rfl⟩
      obtain ⟨service, rfl⟩ := Option.isSome_iff_exists.mp hsome
      have hlookup := h.registered.mpr ⟨tags', hearlier⟩
      rw [hservice service rfl] at hlookup
      cases hlookup
  | clone original copy =>
    cases hnew
    cases earlier with
    | tag | write => exact trivial
    | clone original' copy' => exact h.ne_size hearlier rfl
    | create service tags logger => exact h.ne_size hearlier rfl

/-- A new logger is made, for a service that has none yet or for no service. -/
theorem make (h : Accounts history services s) (hnew : deed.logger? = some s.size)
    (hservice : ∀ service ∈ deed.service?, services.lookup service = none) {found : List (Text × ObjectId)}
    (hfound : ∀ {service logger}, found.lookup service = some logger ↔
      services.lookup service = some logger ∨ deed.service? = some service ∧ logger = s.size)
    {tags : Members Value} (htags : given (deed :: history) s.size = tags) :
    Accounts (deed :: history) found (s.addLogger (.ofList tags)).2 := by
  have hcases : ∀ {logger}, logger ∈ loggers (deed :: history) → logger = s.size ∨ logger ∈ history.loggers := by
    intro logger hlogger
    rwa [loggers_cons hnew, List.mem_cons] at hlogger
  refine ⟨h.ground.addLogger _, .cons (fun _ => h.apart_new hnew hservice) h.apart, fun hlogger => ?_,
    fun {logger} hlogger => ?_, ?_, ?_⟩
  · rcases hcases hlogger with rfl | hold
    · exact Store.answers_addLogger s _
    · exact (h.answers hold).addLogger _
  · rcases hcases hlogger with rfl | hold
    · rw [htags]
      exact Store.tags_addLogger s _
    · have hother : deed.tagged? ≠ some logger := by
        rw [Deed.tagged?_eq_none hnew]
        exact (Option.some_ne_none _).symm
      rw [Store.kept_addLogger _ (h.lt_size hold), h.tags hold, given_cons hold hother]
  · intro service logger
    rw [hfound]
    constructor
    · rintro (hold | ⟨hown, rfl⟩)
      · obtain ⟨tags, htags⟩ := h.registered.mp hold
        exact ⟨tags, List.mem_cons_of_mem _ htags⟩
      · obtain ⟨tags, rfl⟩ := Deed.eq_create hown hnew
        exact ⟨tags, List.mem_cons_self⟩
    · rintro ⟨tags, htags⟩
      rcases List.mem_cons.mp htags with rfl | hold
      · exact .inr ⟨rfl, Option.some.inj hnew⟩
      · exact .inl (h.registered.mpr ⟨tags, hold⟩)
  · -- An old service has an old logger, and the new service the new one.
    intro service logger other hlookup hother hlogger
    rcases hfound.mp hlookup with hold | ⟨hown, rfl⟩ <;> rcases List.mem_cons.mp hother with rfl | hmem
    · obtain ⟨tags, htags⟩ := h.registered.mp hold
      exact absurd (Option.some.inj (hnew.symm.trans hlogger)) (h.ne_size htags rfl)
    · exact h.served hold hmem hlogger
    · exact Deed.eq_create hown hnew
    · exact absurd rfl (h.ne_size hmem hlogger)

/-- A new logger is made for no service. -/
theorem make_free (h : Accounts history services s) (hnew : deed.logger? = some s.size)
    (hservice : deed.service? = none) {tags : Members Value} (htags : given (deed :: history) s.size = tags) :
    Accounts (deed :: history) services (s.addLogger (.ofList tags)).2 := by
  refine h.make hnew (fun service hmem => ?_) (fun {service logger} => ?_) htags
  · rw [hservice] at hmem
    cases hmem
  · rw [hservice]
    simp

/-- A new logger is made for a service. -/
theorem serve (h : Accounts history services s) {service : Text} (hservice : services.lookup service = none)
    (tags : Members Value) : Accounts (.create (some service) tags s.size :: history) (services ++ [(service, s.size)])
      (s.addLogger (.ofList tags)).2 := by
  refine h.make rfl (fun other hother => by cases hother; exact hservice) (fun {other logger} => ?_)
    (if_pos ⟨rfl, h.size_not_mem⟩)
  rw [List.lookup_append]
  by_cases heq : other = service
  · rw [heq, hservice]
    simp [Deed.service?, eq_comm]
  · simp [Deed.service?, List.lookup_cons, beq_eq_false_iff_ne.mpr heq, Ne.symm heq]

/-- A service keeps its logger. -/
theorem apart_served (h : Accounts history services s) {service : Text} (hfound : services.lookup service = some logger)
    (tags : Members Value) {earlier : Deed} (hearlier : earlier ∈ history) :
    (Deed.create (some service) tags logger).Apart earlier := by
  cases earlier with
  | tag | write => exact trivial
  | clone original copy =>
    rintro rfl
    obtain ⟨_, heq⟩ := h.served hfound hearlier rfl
    cases heq
  | create service' tags' logger' =>
    constructor
    · rintro rfl
      obtain ⟨_, heq⟩ := h.served hfound hearlier rfl
      cases heq
      exact ⟨rfl, rfl⟩
    · rintro ⟨-, rfl⟩
      exact Option.some.inj (hfound.symm.trans (h.registered.mpr ⟨tags', hearlier⟩))

/-- The logger of a service that has one is returned again. -/
theorem revisit (h : Accounts history services s) {service : Text} (hfound : services.lookup service = some logger)
    (tags : Members Value) : Accounts (.create (some service) tags logger :: history) services s := by
  obtain ⟨first, hfirst⟩ := h.registered.mp hfound
  have hold : logger ∈ history.loggers := mem_loggers.mpr ⟨_, hfirst, rfl⟩
  have hcases : ∀ {l}, l ∈ loggers (.create (some service) tags logger :: history) → l ∈ history.loggers := by
    intro l hl
    rcases List.mem_cons.mp (show l ∈ logger :: history.loggers from hl) with rfl | hl
    · exact hold
    · exact hl
  refine ⟨h.ground, .cons (fun _ => h.apart_served hfound tags) h.apart, fun hl => h.answers (hcases hl), fun hl => ?_,
    fun {other l} => ⟨fun hl => ?_, ?_⟩, fun {other l deed} hl hdeed hlogger => ?_⟩
  · rw [h.tags (hcases hl), given_cons (hcases hl)]
    exact (Option.some_ne_none _).symm
  · obtain ⟨tags', hmem⟩ := h.registered.mp hl
    exact ⟨tags', List.mem_cons_of_mem _ hmem⟩
  · rintro ⟨tags', hmem⟩
    rcases List.mem_cons.mp hmem with heq | hmem
    · cases heq
      exact hfound
    · exact h.registered.mpr ⟨tags', hmem⟩
  · rcases List.mem_cons.mp hdeed with rfl | hmem
    · -- The logger is found for another service, which must be the same one.
      cases hlogger
      obtain ⟨_, heq⟩ := h.served hl hfirst rfl
      cases heq
      exact ⟨tags, rfl⟩
    · exact h.served hl hmem hlogger

/-- Deeds of which no logger comes leave the services as they are. -/
theorem cons (h : Accounts history services s) (hdeed : deed.logger? = none) (hground : t.HasGround)
    (hanswers : ∀ {logger}, logger ∈ history.loggers → t.Answers logger)
    (htags : ∀ {logger}, logger ∈ history.loggers →
      (t.kept logger).tags = { members := .ofList (given (deed :: history) logger) }) :
    Accounts (deed :: history) services t := by
  have hloggers : loggers (deed :: history) = history.loggers := List.filterMap_cons_none hdeed
  have hmem : ∀ {service tags logger}, Deed.create service tags logger ∈ deed :: history ↔
      Deed.create service tags logger ∈ history := by
    intro service tags logger
    rw [List.mem_cons, or_iff_right]
    rintro rfl
    cases hdeed
  refine ⟨hground, .cons (fun earlier _ => ?_) h.apart, fun hl => hanswers (hloggers ▸ hl),
    fun hl => htags (hloggers ▸ hl), fun {service l} => ?_, fun {service l other} hl hother hlogger => ?_⟩
  · cases deed with
    | create | clone => cases hdeed
    | tag | write => cases earlier <;> exact trivial
  · simp only [hmem]
    exact h.registered
  · rcases List.mem_cons.mp hother with rfl | hother
    · rw [hdeed] at hlogger
      cases hlogger
    · exact h.served hl hother hlogger

/-- A logger is tagged. -/
theorem tag (h : Accounts history services s) (hlogger : logger ∈ history.loggers) {name : Text} {value : Value}
    (hkeeps : (history.given logger).KeepsBase name value) :
    ∃ t, s.setTag (.object logger) name value = .ok t ∧ Accounts (.tag logger name value :: history) services t := by
  rw [Members.KeepsBase, ← Members.has_ofList] at hkeeps
  refine ⟨_, Store.setTag_run h.ground (h.answers hlogger) (h.tags hlogger) hkeeps,
    h.cons rfl ⟨h.ground.object, h.ground.base⟩ (fun hl => h.answers hl) fun {l} hl => ?_⟩
  rw [Store.kept_keep, Members.has_ofList]
  by_cases heq : l = logger
  · subst heq
    rw [if_pos ⟨rfl, h.lt_size hl⟩]
    by_cases htaken : name = baseName → (history.given l).has name = true
    · rw [show given (.tag l name value :: history) l = _ from if_pos ⟨rfl, htaken⟩, Members.ofList_concat, if_neg]
      rintro ⟨hbase, hno⟩
      rw [htaken hbase] at hno
      cases hno
    · rw [show given (.tag l name value :: history) l = _ from if_neg fun h => htaken h.2, if_pos]
      simpa using htaken
  · rw [if_neg fun h => heq h.1, h.tags hl, given_cons hl]
    exact fun h => heq (Option.some.inj h).symm

/-- A logger is cloned. -/
theorem clone (h : Accounts history services s) (hlogger : logger ∈ history.loggers) :
    ∃ t, s.cloneLogger (.object logger) = .ok (s.size, t) ∧ Accounts (.clone logger s.size :: history) services t := by
  refine ⟨_, ?_, h.make_free rfl rfl (if_pos ⟨rfl, h.size_not_mem⟩)⟩
  rw [Store.cloneLogger, (h.answers hlogger).loggerFor (by decide), h.tags hlogger]
  rfl

/-- A logger is created, or the one of the service is returned. -/
theorem create {j : Journal} (h : Accounts history j.services s) (tags : Value) :
    Accounts (.create (Journal.service? s tags) (s.listed tags) (j.create s tags).1 :: history)
      (j.create s tags).2.1.services (j.create s tags).2.2 := by
  cases hservice : Journal.service? s tags with
  | none =>
    simp only [Journal.create, hservice]
    exact h.make_free rfl rfl (if_pos ⟨rfl, h.size_not_mem⟩)
  | some service =>
    cases hlookup : j.services.lookup service with
    | none =>
      simp only [Journal.create, hservice, hlookup]
      exact h.serve hlookup _
    | some logger =>
      simp only [Journal.create, hservice, hlookup]
      exact h.revisit hlookup _

end Accounts

namespace Session

variable {history : History} {σ τ : Session} {deed : Deed}

/-! ## Runs -/

/-- The lines of a logger show the given tags, overlaid by those of the line. Of each name that is the value that it was
given last, if there is one, and names are in the order of a record. -/
def WritesWith (σ : Session) (logger : ObjectId) (tags : Members Value) : Prop :=
  ∀ (level : Level) (message : Data) (extra : Members Data),
    let given := tags.map (Prod.map id .leaf) ++ extra
    Members.ListsAs (given.latest.filter fun entry => !entry.2.isMissing) (LogLine.overlaid given) ∧
      (Journal.write σ.store (.object logger) level message extra σ.journal).2.lines =
        (σ.journal.line? σ.store level message (LogLine.overlaid given)).elim σ.journal.lines σ.journal.lines.push

/-- What can be done with the loggers of a history, and the session that it leaves. -/
inductive Step (history : History) (σ : Session) : Deed → Session → Prop
  | create {tags : Value} {logger : ObjectId} (run : (createLogger tags σ).1 = .ok logger) :
      Step history σ (.create (Journal.service? σ.store tags) (σ.store.listed tags) logger) (createLogger tags σ).2
  | clone {original copy : ObjectId} (known : original ∈ history.loggers)
      (run : (cloneLogger (.object original) σ).1 = .ok copy) :
      Step history σ (.clone original copy) (cloneLogger (.object original) σ).2
  | tag {logger : ObjectId} {name : Text} {value : Value} (known : logger ∈ history.loggers)
      (keeps : (history.given logger).KeepsBase name value) (run : (tagLogger (.object logger) name value σ).1 = .ok ()) :
      Step history σ (.tag logger name value) (tagLogger (.object logger) name value σ).2
  | write {logger : ObjectId} (known : logger ∈ history.loggers) (level : Level) (message : Data)
      (extra : Members Data) :
      Step history σ (.write logger) (journaling (Journal.write · (.object logger) level message extra) σ).2

theorem Step.of_create {tags : Value} {service : Option Text} {members : Members Value} {logger : ObjectId}
    (hservice : Journal.service? σ.store tags = service) (hmembers : σ.store.listed tags = members)
    (hlogger : (σ.journal.create σ.store tags).1 = logger) :
    Step history σ (.create service members logger) (createLogger tags σ).2 := by
  subst hservice hmembers hlogger
  exact .create rfl

/-- Work that has nothing to do with some loggers: services have the loggers that they had, and these answer to their
operations and have the tags that they had. -/
structure Bypasses (loggers : List ObjectId) (σ τ : Session) : Prop where
  services : τ.journal.services = σ.journal.services
  ground : τ.store.HasGround
  answers : ∀ logger ∈ loggers, τ.store.Answers logger
  tags : ∀ logger ∈ loggers, (τ.store.kept logger).tags = (σ.store.kept logger).tags

/-- The deed by which the logger of a service is made. -/
def making (service : Text) (logger : ObjectId) : Deed := .create (some service) [("service", .text service)] logger

/-- The deeds by which loggers of services are made in turn, from a number on. -/
def makings (first : ObjectId) (services : List Text) : History :=
  ((services.zipIdx first).map fun entry => making entry.1 entry.2).reverse

/-- The loggers of the library are there from the start. -/
def opening : History := makings (Calc.grammarId + Calc.grammar.objects.length) services

/-- A session after a history of deeds. Meanwhile anything else can be done that has nothing to do with loggers. -/
inductive Logs : History → Session → Prop
  | start (now : Number) : Logs opening (start now)
  | step {history : History} {σ τ : Session} {deed : Deed} (before : Logs history σ) (next : Step history σ deed τ) :
      Logs (deed :: history) τ
  | meanwhile {history : History} {σ τ : Session} (before : Logs history σ) (bypasses : Bypasses history.loggers σ τ) :
      Logs history τ

/-- What is said of a session by a history of its loggers. -/
abbrev AccountedBy (σ : Session) (history : History) : Prop := Accounts history σ.journal.services σ.store

theorem AccountedBy.cloneLogger (h : σ.AccountedBy history) {logger : ObjectId} (hlogger : logger ∈ history.loggers) :
    (cloneLogger (.object logger) σ).1 = .ok σ.store.size ∧
      (cloneLogger (.object logger) σ).2.AccountedBy (.clone logger σ.store.size :: history) := by
  obtain ⟨t, ht, hafter⟩ := h.clone hlogger
  rw [Session.cloneLogger, changing_run, ht]
  exact ⟨rfl, hafter⟩

theorem AccountedBy.tagLogger (h : σ.AccountedBy history) {logger : ObjectId} (hlogger : logger ∈ history.loggers)
    {name : Text} {value : Value} (hkeeps : (history.given logger).KeepsBase name value) :
    (tagLogger (.object logger) name value σ).1 = .ok () ∧
      (tagLogger (.object logger) name value σ).2.AccountedBy (.tag logger name value :: history) := by
  obtain ⟨t, ht, hafter⟩ := h.tag hlogger hkeeps
  rw [Session.tagLogger, changing_run, ht]
  exact ⟨rfl, hafter⟩

theorem AccountedBy.step (h : σ.AccountedBy history) (hstep : Step history σ deed τ) :
    τ.AccountedBy (deed :: history) := by
  cases hstep with
  | @create tags logger run =>
    cases run
    exact h.create tags
  | clone known run =>
    obtain ⟨hrun, hafter⟩ := h.cloneLogger known
    cases hrun.symm.trans run
    exact hafter
  | tag known keeps run => exact (h.tagLogger known keeps).2
  | @write logger known level message extra =>
    obtain ⟨last, lines, hlines⟩ := Journal.write_relines σ.store (.object logger) level message extra σ.journal
    rw [journaling_run, hlines]
    exact h.cons rfl h.ground (fun hl => h.answers hl) fun hl => h.tags hl

theorem AccountedBy.meanwhile (h : σ.AccountedBy history) (hτ : Bypasses history.loggers σ τ) :
    τ.AccountedBy history where
  ground := hτ.ground
  apart := h.apart
  answers hl := hτ.answers _ hl
  tags hl := (hτ.tags _ hl).trans (h.tags hl)
  registered := by
    rw [hτ.services]
    exact h.registered
  served hl := h.served (hτ.services ▸ hl)

/-- Objects that are made leave loggers as they are. -/
theorem AccountedBy.bypasses_expands (h : σ.AccountedBy history) {s : Store} (hs : σ.store.Expands s) :
    Bypasses history.loggers σ { σ with store := s } where
  services := rfl
  ground := h.ground.expands hs
  answers _ hlogger := (h.answers hlogger).expands hs
  tags _ _ := by rw [hs.kept]

/-- Loggers are made for services in turn. -/
theorem accounts_addServices (services : List Text) (state : Journal × Store)
    (h : Accounts history state.1.services state.2) (hnodup : services.Nodup)
    (hnew : ∀ service ∈ services, state.1.services.lookup service = none) :
    Accounts (makings state.2.size services ++ history) (services.foldl addService state).1.services
      (services.foldl addService state).2 := by
  induction services generalizing state history with
  | nil => exact h
  | cons service services ih =>
    have hmakings : makings state.2.size (service :: services) ++ history =
        makings (state.2.size + 1) services ++ (making service state.2.size :: history) := by
      simp [makings, List.zipIdx_cons]
    have hsize : (addService state service).2.size = state.2.size + 1 := Store.size_add ..
    rw [hmakings, ← hsize]
    refine ih _ (h.serve (hnew service List.mem_cons_self) _) (List.nodup_cons.mp hnodup).2 fun other hother => ?_
    have hne : other ≠ service := fun heq => (List.nodup_cons.mp hnodup).1 (heq ▸ hother)
    show (state.1.services ++ [(service, state.2.size)]).lookup other = none
    rw [List.lookup_append, hnew other (List.mem_cons_of_mem _ hother)]
    simp [hne]

/-- The loggers that there are from the start are those of the opening. -/
theorem accountedBy_start (now : Number) : (start now).AccountedBy opening := by
  have hempty : Accounts [] (Journal.empty now).services calcStore :=
    { ground := ⟨by decide +kernel, by decide +kernel⟩
      apart := .nil
      answers := fun hl => by cases hl
      tags := fun hl => by cases hl
      registered := by simp [Journal.empty]
      served := fun _ hdeed => by cases hdeed }
  have hall := accounts_addServices services (Journal.empty now, calcStore) hempty (by decide) fun _ _ => rfl
  rw [List.append_nil, size_calcStore] at hall
  exact hall

theorem Logs.accounted (h : Logs history σ) : σ.AccountedBy history := by
  induction h with
  | start now => exact accountedBy_start now
  | step _ next ih => exact ih.step next
  | meanwhile _ bypasses ih => exact ih.meanwhile bypasses

theorem Logs.tag (h : Logs history σ) {logger : ObjectId} (hlogger : logger ∈ history.loggers) {name : Text}
    {value : Value} (hkeeps : (history.given logger).KeepsBase name value) :
    Logs (.tag logger name value :: history) (tagLogger (.object logger) name value σ).2 :=
  h.step (.tag hlogger hkeeps (h.accounted.tagLogger hlogger hkeeps).1)

theorem AccountedBy.writesWith (h : σ.AccountedBy history) {logger : ObjectId} (hlogger : logger ∈ history.loggers) :
    σ.WritesWith logger (history.given logger) := by
  intro level message extra
  have hoperation : level.operation ∈ Store.loggerOperations := by cases level <;> decide
  refine ⟨(Members.listsAs_latest _).filter _, ?_⟩
  obtain ⟨last, hrun⟩ := Journal.write_run ((h.answers hlogger).loggerFor hoperation) message extra σ.journal
  rw [hrun, h.tags hlogger, LogLine.shownTags_ofList]

/-- After any history, loggers that were created are told apart by their services, and clones are told apart from all
others. A logger can always be created, cloned and tagged, and its lines show what it has been given. Nothing that is
done next changes that, unless it is a tag for the logger itself. -/
theorem Logs.isolated (h : Logs history σ) :
    history.Pairwise Deed.Apart ∧ (∀ tags, ∃ logger, (createLogger tags σ).1 = .ok logger) ∧
      (∀ logger ∈ history.loggers, σ.WritesWith logger (history.given logger) ∧
        (cloneLogger (.object logger) σ).1 = .ok σ.store.size ∧
        ∀ name value, (history.given logger).KeepsBase name value → (tagLogger (.object logger) name value σ).1 = .ok ()) ∧
      ∀ deed τ, Step history σ deed τ → ∀ logger ∈ history.loggers, deed.tagged? ≠ some logger →
        τ.WritesWith logger (history.given logger) := by
  have hσ := h.accounted
  refine ⟨hσ.apart, fun tags => ⟨_, rfl⟩, fun logger hlogger => ⟨hσ.writesWith hlogger, (hσ.cloneLogger hlogger).1,
    fun name value hkeeps => (hσ.tagLogger hlogger hkeeps).1⟩, fun deed τ hstep logger hlogger hother => ?_⟩
  have hτ := hσ.step hstep
  rw [← given_cons hlogger hother]
  refine hτ.writesWith ?_
  obtain ⟨earlier, hearlier, hmade⟩ := mem_loggers.mp hlogger
  exact mem_loggers.mpr ⟨earlier, List.mem_cons_of_mem _ hearlier, hmade⟩

/-! ### A history -/

/-- Tags that name a service. -/
def lexerTags : Members Value := [("7", .text "x"), ("service", .text "lexer")]

/-- Other tags that name the same service. -/
def ignoredTags : Members Value := [("service", .text "lexer"), ("depth", .text "3")]

/-- A new session with the two. -/
def equipped : Session :=
  { start 0 with store := (((start 0).store.add (.ofMembers lexerTags)).2.add (.ofMembers ignoredTags)).2 }

/-- A logger is created for the service, -/
def created : Session := (createLogger (.object 29) equipped).2

/-- it is cloned, -/
def cloned : Session := (cloneLogger (.object 31) created).2

/-- the clone and then the original are tagged, and the service gets its logger again. -/
def recreated : Session :=
  (createLogger (.object 30) (tagLogger (.object 31) "7" .null (tagLogger (.object 32) "2" (.text "y") cloned).2).2).2

/-- All that has been done with loggers then. -/
def deeds : History :=
  .create (some "lexer") ignoredTags 31 :: .tag 31 "7" .null :: .tag 32 "2" (.text "y") :: .clone 31 32 ::
    .create (some "lexer") lexerTags 31 :: opening

theorem logs_recreated : Logs deeds recreated := by
  have hequipped : Logs opening equipped :=
    (Logs.start 0).meanwhile ((accountedBy_start 0).bypasses_expands (((Store.Expands.refl _).add _).add _))
  have hcreate : Step opening equipped (.create (some "lexer") lexerTags 31) created :=
    .of_create (by decide +kernel) (by decide +kernel) (by decide +kernel)
  have hcreated := hequipped.step hcreate
  have hcopy : (cloneLogger (.object 31) created).1 = .ok 32 :=
    (hcreated.accounted.cloneLogger List.mem_cons_self).1.trans (congrArg Except.ok (by decide +kernel))
  have hcloned := hcreated.step (.clone List.mem_cons_self hcopy)
  have htagged : Logs (.tag 32 "2" (.text "y") :: _) _ := hcloned.tag (by decide) fun h => absurd h (by decide)
  have hretagged : Logs (.tag 31 "7" .null :: _) _ := htagged.tag (by decide) fun h => absurd h (by decide)
  exact hretagged.step (.of_create (by decide +kernel) (by decide +kernel) (by decide +kernel))

/-- Neither of the two shows the later tag of the other. -/
theorem isolated_recreated : Logs deeds recreated ∧ deeds.Pairwise Deed.Apart ∧
    recreated.WritesWith 31 [("7", .text "x"), ("service", .text "lexer"), ("7", .null)] ∧
    recreated.WritesWith 32 [("7", .text "x"), ("service", .text "lexer"), ("2", .text "y")] := by
  obtain ⟨hapart, -, hlines, -⟩ := Logs.isolated logs_recreated
  exact ⟨logs_recreated, hapart, (hlines 31 (by decide)).1, (hlines 32 (by decide)).1⟩

example : (Journal.write recreated.store (.object 32) .info (.ofText "hello") [] recreated.journal).2.lines =
    #[("INFO  1970-01-01T00:00:00 +0ms 2=y 7=x service=lexer hello\n" : Text)] := by decide +kernel

/-- A new session with a token, which is sealed. -/
def tokened : Session := { start 0 with store := ((start 0).store.add (.token ⟨.ofNat 1, 0, 0, 1⟩)).2 }

/-- A text under the name of the base is dropped. A token under this name becomes the base of the tags, and then no tag
can have the name of one of its members. -/
theorem not_writesWith_base : Logs opening (start 0) ∧
    Step opening (start 0) (.tag 28 baseName (.text "x")) (tagLogger (.object 28) baseName (.text "x") (start 0)).2 ∧
    ¬ (tagLogger (.object 28) baseName (.text "x") (start 0)).2.WritesWith 28 (given opening 28 ++ [(baseName, .text "x")]) ∧
    (tagLogger (.object 28) "kind" (.text "w") (tagLogger (.object 28) baseName (.object 29) tokened).2).1 =
      .error (.misuse .isSealed) := by
  have hlogger : 28 ∈ loggers opening := by decide
  have hkeeps : (given opening 28).KeepsBase baseName (.text "x") := fun _ _ => ⟨by decide, rfl, rfl⟩
  refine ⟨.start 0, .tag hlogger hkeeps ((accountedBy_start 0).tagLogger hlogger hkeeps).1, fun h => ?_, rfl⟩
  exact absurd (h .info (.ofText "hello") []).2 (by decide +kernel)

end Session

end LosslessSyntax
