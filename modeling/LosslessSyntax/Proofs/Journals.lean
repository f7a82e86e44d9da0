import LosslessSyntax.Journal.Basic
import LosslessSyntax.Proofs.Additions

/-!
# Lines of the journal

What a logger writes when its tags are texts, and when it writes anything at all.

* `LogLine.tagsText_set`: a line shows the tags of its logger with one more set among them.
* `LogLine.valueText_fault`: a fault shows as the JSON of its name and payload, if there is one.
* `Store.HasLogger`: a logger with all its operations and nothing but texts for tags.
* `Journal.write_run`: writing adds the line that shows the tags of the logger and those of the line, if there is one.
* `Journal.write_cases`: no line is written, as it is below the level or cannot be put together, or just one is.
-/

namespace LosslessSyntax

/-! ## Members -/

namespace Members

variable {α β : Type}

theorem map_set (f : α → β) (m : Members α) (name : Text) (value : α) :
    (m.set name value).map (fun entry => (entry.1, f entry.2)) =
      Members.set (m.map fun entry => (entry.1, f entry.2)) name (f value) := by
  have hhas : Members.has (m.map fun entry => (entry.1, f entry.2)) name = m.has name := List.any_map ..
  have hinsert : ∀ m : Members α, (insert name value m).map (fun entry => (entry.1, f entry.2)) =
      insert name (f value) (m.map fun entry => (entry.1, f entry.2)) := by
    intro m
    induction m with
    | nil => rfl
    | cons entry rest ih =>
      rw [insert, List.map_cons, insert]
      split
      · rfl
      · rw [List.map_cons, ih]
  rw [set, set, hhas]
  split
  · rw [List.map_map, List.map_map]
    refine List.map_congr_left fun entry _ => ?_
    simp only [Function.comp_apply]
    split <;> rfl
  · exact hinsert m

theorem mem_set {m : Members α} {name : Text} {value : α} {entry : Text × α} (h : entry ∈ m.set name value) :
    entry ∈ m ∨ entry = (name, value) := by
  have hinsert : ∀ m : Members α, entry ∈ insert name value m → entry ∈ m ∨ entry = (name, value) := by
    intro m hmem
    induction m with
    | nil => exact .inr (List.mem_singleton.mp hmem)
    | cons first rest ih =>
      rw [insert] at hmem
      split at hmem
      · rcases List.mem_cons.mp hmem with rfl | hmem
        · exact .inr rfl
        · exact .inl hmem
      · rcases List.mem_cons.mp hmem with rfl | hmem
        · exact .inl (List.mem_cons_self ..)
        · exact (ih hmem).imp_left (List.mem_cons_of_mem _)
  rw [set] at h
  split at h
  · obtain ⟨old, hold, rfl⟩ := List.mem_map.mp h
    split
    · exact .inr rfl
    · exact .inl hold
  · exact hinsert m h

theorem mem_set_self (m : Members α) (name : Text) (value : α) : (name, value) ∈ m.set name value :=
  mem_of_get? (by rw [get?_set, if_pos rfl])

end Members

/-! ## Lines -/

namespace LogLine

/-- Whether a line is one of the level for errors. -/
def isError (line : Text) : Bool := Level.error.heading.isPrefixOf line

theorem isError_compose (level : Level) (timestamp : Text) (elapsed : Number) (tags : Text) (message : Option Text) :
    isError (compose level timestamp elapsed tags message) = (level == .error) := by
  rw [isError, compose]
  cases level <;> rfl

/-- Texts as the values of tags. -/
def ofTexts (tags : Members Text) : Members Value := tags.map fun entry => (entry.1, .text entry.2)

/-- Tags that are texts, as they stand on a line. -/
def fieldsText (fields : Members Text) : Text := Text.join " " (fields.map fun entry => entry.1 ++ "=" ++ entry.2)

variable {s : Store}

theorem valueText_text (s : Store) (t : Text) : valueText s (.leaf (.text t)) = .ok t := rfl

/-- Tags that are texts, as data. -/
def ownTags (tags : Members Text) : Members Data := (ofTexts tags).map fun (name, value) => (name, .leaf value)

theorem mem_ownTags {tags : Members Text} {entry : Text × Data} (h : entry ∈ ownTags tags) :
    ∃ text, entry.2 = .leaf (.text text) := by
  rw [ownTags, ofTexts, List.map_map] at h
  obtain ⟨tag, _, rfl⟩ := List.mem_map.mp h
  exact ⟨tag.2, rfl⟩

/-- A line shows the tags of a logger that are texts, with one more set among them. -/
theorem tagsText_set (s : Store) (tags : Members Text) (name : Text) {d : Data} (hd : d.isMissing = false) :
    tagsText s (shownTags (ownTags tags) [(name, d)]) =
      (fun text => fieldsText (tags.set name text)) <$> valueText s d := by
  have hmem : ∀ {entry}, entry ∈ (ownTags tags).set name d →
      (∃ text, entry.2 = .leaf (.text text)) ∨ entry = (name, d) := fun h => (Members.mem_set h).imp_left mem_ownTags
  have hshown : shownTags (ownTags tags) [(name, d)] = (ownTags tags).set name d := by
    refine List.filter_eq_self.mpr fun entry hentry => ?_
    show (!entry.2.isMissing) = true
    rcases hmem hentry with ⟨text, htext⟩ | rfl
    · rw [htext]
      rfl
    · rw [hd]
      rfl
  rw [hshown, tagsText]
  cases hvalue : valueText s d with
  | ok text =>
    let shown : Data → Text := fun d => (valueText s d).toOption.getD []
    have hmap : ((ownTags tags).set name d).map (fun entry => (entry.1, shown entry.2)) = tags.set name text := by
      rw [Members.map_set, ownTags, ofTexts, List.map_map, List.map_map]
      have hshown : shown d = text := by simp only [shown, hvalue, Except.toOption, Option.getD_some]
      rw [hshown]
      exact congrArg (Members.set · name text) (List.map_id' tags)
    rw [Attempt.mapM_ok (g := fun entry => entry.1 ++ "=" ++ shown entry.2) fun entry hentry => ?_]
    · show Except.ok (Text.join " " _) = Except.ok (fieldsText _)
      rw [fieldsText, ← hmap, List.map_map]
      rfl
    · rcases hmem hentry with ⟨t, ht⟩ | rfl
      · simp only [shown, ht, valueText_text, Except.toOption, Option.getD_some]
        rfl
      · simp only [shown, hvalue, Except.toOption, Option.getD_some]
        rfl
  | error misuse =>
    have hfails : ∃ entry ∈ (ownTags tags).set name d,
        (do return entry.1 ++ "=" ++ (← valueText s entry.2) : Except Misuse Text) = .error misuse :=
      ⟨_, Members.mem_set_self _ name d, by rw [hvalue]; rfl⟩
    rw [Attempt.mapM_error (fun entry hentry => ?_) hfails]
    · rfl
    · rcases hmem hentry with ⟨t, ht⟩ | rfl
      · exact .inr ⟨entry.1 ++ "=" ++ t, by rw [ht, valueText_text]; rfl⟩
      · exact .inl (by rw [hvalue]; rfl)

/-- A fault shows as its name and payload. -/
theorem valueText_fault (s : Store) (fault : Fault) :
    valueText s fault.toData = namedErrorText s fault.name fault.payload := rfl

end LogLine

/-! ## Loggers -/

/-- A logger that has all its operations. -/
def Object.Speaks (o : Object) : Prop :=
  ∃ m, o = .logger m ∧ ∀ level : Level, ∃ operation, m.get? level.operation = some (.operation operation)

namespace Store

variable {s t : Store} {logger : Value} {tags : Members Text}

/-- A value is a logger that has all its operations, and nothing but texts for tags. -/
def HasLogger (s : Store) (logger : Value) (tags : Members Text) : Prop :=
  ∃ id o, logger = .object id ∧ s.object? id = some o ∧ o.Speaks ∧ (s.kept id).tags.members = LogLine.ofTexts tags

/-- Such a logger answers for itself. -/
theorem HasLogger.loggerFor (h : s.HasLogger logger tags) (level : Level) :
    ∃ found, s.loggerFor logger level.operation = .ok found ∧ found.tags.members = LogLine.ofTexts tags := by
  obtain ⟨id, o, rfl, hobject, ⟨m, rfl, hall⟩, htags⟩ := h
  obtain ⟨operation, hget⟩ := hall level
  have hseek : s.seek id level.operation = some (id, .operation operation) := by
    have hown : (Object.logger m).own? level.operation = some (.operation operation) := hget
    rw [seek, seekFrom_succ, hobject, Option.bind_some, hown]
  refine ⟨⟨id, (s.kept id).tags⟩, ?_, htags⟩
  simp only [Store.loggerFor, hseek, hobject]
  rfl

theorem HasLogger.expands (h : s.HasLogger logger tags) (hk : s.Expands t) : t.HasLogger logger tags := by
  obtain ⟨id, o, rfl, hobject, ⟨m, rfl, hall⟩, htags⟩ := h
  obtain ⟨c, hcell, hlogger⟩ := Option.map_eq_some_iff.mp hobject
  obtain ⟨c', hcell', hstays⟩ := hk.stays hcell
  obtain ⟨values, hvalues⟩ := hstays.object
  refine ⟨id, c'.object, rfl, by rw [object?, hcell']; rfl, ⟨m, ?_, hall⟩, hk.kept ▸ htags⟩
  rw [hvalues, hlogger]
  exact Object.restacked_eq (fun _ => rfl) values

/-- A change of a cell after which a logger is still one. -/
theorem HasLogger.modify (h : s.HasLogger logger tags) {i : ObjectId} {change : Cell → Cell}
    (hchange : ∀ c, s.cell? i = some c → c.object.Speaks → (change c).object.Speaks) :
    (s.modify i change).HasLogger logger tags := by
  obtain ⟨id, o, rfl, hobject, hspeaks, htags⟩ := h
  obtain ⟨c, hcell, rfl⟩ := Option.map_eq_some_iff.mp hobject
  refine ⟨id, (if i = id then change c else c).object, rfl, ?_, ?_, htags⟩
  · rw [object?, cell?_modify, hcell]
    split <;> rfl
  · split
    · rename_i heq
      exact hchange c (heq ▸ hcell) hspeaks
    · exact hspeaks

/-- A change of what is kept beside an object, but for the tags of the logger. -/
theorem HasLogger.keep (h : s.HasLogger logger tags) {i : ObjectId} {change : Kept → Kept}
    (hchange : logger = .object i → ∀ k, (change k).tags = k.tags) : (s.keep i change).HasLogger logger tags := by
  obtain ⟨id, o, rfl, hobject, hspeaks, htags⟩ := h
  refine ⟨id, o, rfl, hobject, hspeaks, ?_⟩
  rw [kept_keep]
  split
  · rename_i heq
    rw [hchange (congrArg Value.object heq.1), htags]
  · exact htags

/-- A logger gets other texts for tags. -/
theorem HasLogger.retag {i : ObjectId} (h : s.HasLogger (.object i) tags) (own : Members Text) :
    (s.keep i ({ · with tags := { members := LogLine.ofTexts own } })).HasLogger (.object i) own := by
  obtain ⟨id, o, heq, hobject, hspeaks, -⟩ := h
  cases heq
  refine ⟨i, o, rfl, hobject, hspeaks, ?_⟩
  rw [kept_keep, if_pos ⟨rfl, lt_size_of_object? hobject⟩]

/-- A member is set that no logger has for an operation. -/
theorem HasLogger.assigns (h : s.HasLogger logger tags) {id : ObjectId} {name : Text} {value : Value} {c : Change}
    (hname : ∀ level : Level, level.operation ≠ name) (hc : s.Assigns id name value c) :
    (s.apply c).HasLogger logger tags := by
  cases hc with
  | same | base => exact h.modify fun _ _ hspeaks => hspeaks
  | member ho hset =>
    refine h.modify fun cell hcell hspeaks => ?_
    obtain ⟨m, hobject, hall⟩ := hspeaks
    rw [object?, hcell, Option.map_some, hobject] at ho
    cases ho
    cases hset
    refine ⟨_, rfl, fun level => ?_⟩
    rw [Members.get?_set, if_neg (hname level)]
    exact hall level
  | stack ho =>
    refine h.modify fun cell hcell hspeaks => ?_
    obtain ⟨m, hobject, -⟩ := hspeaks
    rw [object?, hcell, Option.map_some, hobject] at ho
    cases ho

theorem HasLogger.addLogger (h : s.HasLogger logger tags) (more : Members Value) :
    (s.addLogger more).2.HasLogger logger tags := by
  obtain ⟨id, o, rfl, hobject, hspeaks, htags⟩ := h
  have hne : id ≠ s.size := Nat.ne_of_lt (lt_size_of_object? hobject)
  refine ⟨id, o, rfl, ?_, hspeaks, ?_⟩
  · show (s.add _).2.object? id = some o
    rw [object?, cell?_add, if_neg hne]
    exact hobject
  · rw [addLogger_snd, kept_keep, if_neg fun h => hne h.1]
    exact htags

/-- A new logger is in order. -/
theorem hasLogger_addLogger (s : Store) (tags : Members Text) :
    (s.addLogger (LogLine.ofTexts tags)).2.HasLogger (.object s.size) tags := by
  have hall : ∀ level : Level, ∃ operation,
      Members.get? (operationMembers loggerOperations) level.operation = some (Value.operation operation) := by
    intro level
    cases level <;> exact ⟨_, rfl⟩
  refine ⟨s.size, _, rfl, ?_, ⟨_, rfl, hall⟩, ?_⟩
  · show (s.add _).2.object? s.size = _
    rw [object?, cell?_add, if_pos rfl]
    rfl
  · rw [addLogger_snd, kept_keep, if_pos ⟨rfl, by rw [size_add]; exact Nat.lt_succ_self _⟩]

end Store

/-! ## Writing -/

namespace Journal

theorem bind_ok {α β : Type} {x : JournalM α} {f : α → JournalM β} {a : α} {j k : Journal} (h : x j = (.ok a, k)) :
    (x >>= f) j = f a k := by
  simp only [bind, ExceptT.bind, ExceptT.mk, StateT.bind, h, ExceptT.bindCont]

theorem bind_error {α β : Type} {x : JournalM α} {f : α → JournalM β} {m : Misuse} {j k : Journal}
    (h : x j = (.error m, k)) : (x >>= f) j = (.error m, k) := by
  simp only [bind, ExceptT.bind, ExceptT.mk, StateT.bind, h, ExceptT.bindCont]
  rfl

variable {s : Store} {logger : Value} {tags : Members Text} {l level : Level} {message : Data} {extra : Members Data}
  {j : Journal}

theorem get_run (j : Journal) : (get : JournalM Journal) j = (.ok j, j) := rfl

theorem ofExcept_run {α : Type} {x : Except Misuse α} {outcome : Except Misuse α} (h : x = outcome) (j : Journal) :
    (MonadExcept.ofExcept x : JournalM α) j = (outcome, j) := by
  subst h
  cases x <;> rfl

/-- The line that is written with the given tags, if its level is admitted and there is a text for all of it. -/
def line? (s : Store) (j : Journal) (level : Level) (message : Data) (shown : Members Data) : Option Text :=
  if (j.threshold.admits s level).toOption = some true then do
    let tags ← (LogLine.tagsText s shown).toOption
    let timestamp ← (Timestamp.ofInstant (Timestamp.instant j.now)).toOption
    let text ← (LogLine.messageText? s message).toOption
    return LogLine.compose level timestamp (Timestamp.instant j.now - j.last) tags text
  else none

/-- Writing adds one line at most, which shows the tags of the logger and those of the line. -/
theorem write_run {found : Store.LoggerRef} (h : s.loggerFor logger level.operation = .ok found) (message : Data)
    (extra : Members Data) (j : Journal) :
    ∃ last, (write s logger level message extra j).2 = { j with
      last
      lines := (line? s j level message
        (LogLine.shownTags (found.tags.members.map fun entry => (entry.1, .leaf entry.2)) extra)).elim
          j.lines j.lines.push } := by
  have hset : ∀ j k : Journal, (set k : JournalM PUnit) j = (.ok ⟨⟩, k) := fun _ _ => rfl
  rw [write, bind_ok (ofExcept_run h j), bind_ok (get_run j), line?]
  cases j.threshold.admits s level with
  | error m => exact ⟨j.last, congrArg Prod.snd (bind_error (ofExcept_run rfl j))⟩
  | ok admitted =>
    rw [bind_ok (ofExcept_run rfl j)]
    cases admitted with
    | false => exact ⟨j.last, rfl⟩
    | true =>
      simp only [Except.toOption, if_true]
      cases LogLine.tagsText s
          (LogLine.shownTags (found.tags.members.map fun entry => (entry.1, .leaf entry.2)) extra) with
      | error m => exact ⟨j.last, congrArg Prod.snd (bind_error (ofExcept_run rfl j))⟩
      | ok tags =>
        rw [bind_ok (ofExcept_run rfl j), bind_ok (hset j _)]
        refine ⟨Timestamp.instant j.now, ?_⟩
        cases Timestamp.ofInstant (Timestamp.instant j.now) with
        | error m => exact congrArg Prod.snd (bind_error (ofExcept_run rfl _))
        | ok timestamp =>
          rw [bind_ok (ofExcept_run rfl _)]
          cases LogLine.messageText? s message with
          | error m => exact congrArg Prod.snd (bind_error (ofExcept_run rfl _))
          | ok text => exact congrArg Prod.snd (bind_ok (ofExcept_run rfl _))

/-- Whatever writing a line comes to, all but the lines and the instant of the last one stays. -/
theorem write_relines (s : Store) (logger : Value) (level : Level) (message : Data) (extra : Members Data)
    (j : Journal) : ∃ last lines, (write s logger level message extra j).2 = { j with last, lines } := by
  cases h : s.loggerFor logger level.operation with
  | error m =>
    rw [write, bind_error (ofExcept_run h j)]
    exact ⟨j.last, j.lines, rfl⟩
  | ok found => exact (write_run h message extra j).imp fun last hrun => ⟨_, hrun⟩

/-- A line below the level in force is not written. -/
theorem write_below (h : s.HasLogger logger tags) (hj : j.threshold = .level l) (hle : ¬ l.severity ≤ level.severity) :
    write s logger level message extra j = (.ok (), j) := by
  obtain ⟨found, hfound, _⟩ := h.loggerFor level
  have hadmits : j.threshold.admits s level = .ok false := by rw [hj, Threshold.admits, decide_eq_false hle]
  rw [write, bind_ok (ofExcept_run hfound j), bind_ok (get_run j), bind_ok (ofExcept_run hadmits j)]
  rfl

/-- A line is not written if some tag of it has no text. -/
theorem write_untagged (h : s.HasLogger logger tags) (hj : j.threshold = .level l) (hle : l.severity ≤ level.severity)
    {m : Misuse} (htags : LogLine.tagsText s (LogLine.shownTags (LogLine.ownTags tags) extra) = .error m) :
    write s logger level message extra j = (.error m, j) := by
  obtain ⟨found, hfound, hown⟩ := h.loggerFor level
  have hadmits : j.threshold.admits s level = .ok true := by rw [hj, Threshold.admits, decide_eq_true hle]
  rw [LogLine.ownTags, ← hown] at htags
  rw [write, bind_ok (ofExcept_run hfound j), bind_ok (get_run j), bind_ok (ofExcept_run hadmits j), if_pos rfl,
    bind_error (ofExcept_run htags j)]

/-- Nor is it written if the clock shows no instant, but time is counted from then on. -/
theorem write_unstamped (h : s.HasLogger logger tags) (hj : j.threshold = .level l)
    (hle : l.severity ≤ level.severity) {text : Text} {m : Misuse}
    (htags : LogLine.tagsText s (LogLine.shownTags (LogLine.ownTags tags) extra) = .ok text)
    (hstamp : Timestamp.ofInstant (Timestamp.instant j.now) = .error m) :
    write s logger level message extra j = (.error m, { j with last := Timestamp.instant j.now }) := by
  obtain ⟨found, hfound, hown⟩ := h.loggerFor level
  have hadmits : j.threshold.admits s level = .ok true := by rw [hj, Threshold.admits, decide_eq_true hle]
  have hset : ∀ j k : Journal, (set k : JournalM PUnit) j = (.ok ⟨⟩, k) := fun _ _ => rfl
  rw [LogLine.ownTags, ← hown] at htags
  rw [write, bind_ok (ofExcept_run hfound j), bind_ok (get_run j), bind_ok (ofExcept_run hadmits j), if_pos rfl,
    bind_ok (ofExcept_run htags j), bind_ok (hset j _), bind_error (ofExcept_run hstamp _)]

/-- Any other line is written. -/
theorem write_stamped (h : s.HasLogger logger tags) (hj : j.threshold = .level l) (hle : l.severity ≤ level.severity)
    {text timestamp : Text} {shown : Option Text}
    (htags : LogLine.tagsText s (LogLine.shownTags (LogLine.ownTags tags) extra) = .ok text)
    (hstamp : Timestamp.ofInstant (Timestamp.instant j.now) = .ok timestamp)
    (hmessage : LogLine.messageText? s message = .ok shown) :
    write s logger level message extra j = (.ok (), { j with
      last := Timestamp.instant j.now
      lines := j.lines.push (LogLine.compose level timestamp (Timestamp.instant j.now - j.last) text shown) }) := by
  obtain ⟨found, hfound, hown⟩ := h.loggerFor level
  have hadmits : j.threshold.admits s level = .ok true := by rw [hj, Threshold.admits, decide_eq_true hle]
  have hset : ∀ j k : Journal, (set k : JournalM PUnit) j = (.ok ⟨⟩, k) := fun _ _ => rfl
  rw [LogLine.ownTags, ← hown] at htags
  rw [write, bind_ok (ofExcept_run hfound j), bind_ok (get_run j), bind_ok (ofExcept_run hadmits j), if_pos rfl,
    bind_ok (ofExcept_run htags j), bind_ok (hset j _), bind_ok (ofExcept_run hstamp _),
    bind_ok (ofExcept_run hmessage _)]
  rfl

/-- What writing comes to: a line is below the level in force, or it cannot be put together, or it is written. -/
theorem write_cases (h : s.HasLogger logger tags) (hj : j.threshold = .level l) {shown : Option Text}
    (hmessage : LogLine.messageText? s message = .ok shown) (level : Level) (extra : Members Data) :
    (¬ l.severity ≤ level.severity ∧ write s logger level message extra j = (.ok (), j)) ∨
      (l.severity ≤ level.severity ∧
        ∃ m last, write s logger level message extra j = (.error m, { j with last })) ∨
      (l.severity ≤ level.severity ∧ ∃ text timestamp,
        LogLine.tagsText s (LogLine.shownTags (LogLine.ownTags tags) extra) = .ok text ∧
        write s logger level message extra j = (.ok (), { j with
          last := Timestamp.instant j.now
          lines := j.lines.push
            (LogLine.compose level timestamp (Timestamp.instant j.now - j.last) text shown) })) := by
  by_cases hle : l.severity ≤ level.severity
  case neg => exact .inl ⟨hle, write_below h hj hle⟩
  cases htags : LogLine.tagsText s (LogLine.shownTags (LogLine.ownTags tags) extra) with
  | error m => exact .inr (.inl ⟨hle, m, j.last, write_untagged h hj hle htags⟩)
  | ok text =>
    cases hstamp : Timestamp.ofInstant (Timestamp.instant j.now) with
    | error m => exact .inr (.inl ⟨hle, m, _, write_unstamped h hj hle htags hstamp⟩)
    | ok timestamp =>
      exact .inr (.inr ⟨hle, text, timestamp, rfl, write_stamped h hj hle htags hstamp hmessage⟩)

end Journal

end LosslessSyntax
