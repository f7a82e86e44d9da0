import LosslessSyntax.Proofs.Reporting

/-!
# Changing settings

Settings change by updates, which are read from unchecked values, and by resets. An update is accepted as a whole or
refused as a whole (`Settings.Acceptable`).

* `Settings.decides_decoder`: what reading a change comes to.
* `Session.Configured.merged`: after any history of updates and resets, each setting is what the latest accepted update
  since the last reset has given for it. A refused update changes nothing at all, and an accepted one is reported if the
  new level admits that.
-/

namespace LosslessSyntax

/-! ## Checks -/

namespace Checked

variable {α β : Type}

/-- A check that comes to a value if a condition holds, and finds something to report if it does not. -/
structure Decides (x : Checked α) (p : Prop) (a : α) : Prop where
  holds : p → x.run = .ok (.ok a)
  fails : ¬ p → ∃ issues, issues ≠ [] ∧ x.run = .ok (.error issues)

namespace Decides

variable {x : Checked α} {y : Checked β} {p q : Prop} {a : α} {b : β}

theorem congr (h : x.Decides p a) (hpq : p ↔ q) : x.Decides q a :=
  ⟨fun hq => h.holds (hpq.mpr hq), fun hq => h.fails fun hp => hq (hpq.mp hp)⟩

/-- A check that passes. -/
theorem pass (a : α) : (pure a : Checked α).Decides True a := ⟨fun _ => rfl, fun hno => absurd trivial hno⟩

/-- A check that always finds the same. -/
theorem reject (problem : Problem) (a : α) : (Checked.reject problem : Checked α).Decides False a :=
  ⟨fun h => h.elim, fun _ => ⟨_, List.cons_ne_nil _ _, rfl⟩⟩

theorem under (h : x.Decides p a) (name : Text) : (x.under name).Decides p a where
  holds hp := by
    show x.run.map (Except.mapError _) = _
    rw [h.holds hp]
    rfl
  fails hp := by
    obtain ⟨issues, hne, hrun⟩ := h.fails hp
    refine ⟨issues.map (Issue.under name), fun hnil => hne (List.map_eq_nil_iff.mp hnil), ?_⟩
    show x.run.map (Except.mapError _) = _
    rw [hrun]
    rfl

theorem both (hx : x.Decides p a) (hy : y.Decides q b) : (Checked.both x y).Decides (p ∧ q) (a, b) where
  holds h := by
    rw [Checked.both, ExceptT.run_mk, hx.holds h.1, hy.holds h.2]
    rfl
  fails h := by
    rw [Checked.both, ExceptT.run_mk]
    by_cases hp : p
    · obtain ⟨issues, hne, hrun⟩ := hy.fails fun hq => h ⟨hp, hq⟩
      rw [hx.holds hp, hrun]
      exact ⟨issues, hne, rfl⟩
    · obtain ⟨issues, hne, hrun⟩ := hx.fails hp
      rw [hrun]
      by_cases hq : q
      · rw [hy.holds hq]
        exact ⟨issues, hne, rfl⟩
      · obtain ⟨more, _, hrun'⟩ := hy.fails hq
        rw [hrun']
        exact ⟨issues ++ more, fun hnil => hne (List.append_eq_nil_iff.mp hnil).1, rfl⟩

/-- A check that goes on with what was found, if nothing was to be reported before. -/
theorem bind {f : α → Checked β} (hx : x.Decides p a) (hf : p → (f a).Decides q b) : (x >>= f).Decides (p ∧ q) b where
  holds h := by
    rw [ExceptT.run_bind, hx.holds h.1]
    exact (hf h.1).holds h.2
  fails h := by
    rw [ExceptT.run_bind]
    by_cases hp : p
    · obtain ⟨issues, hne, hrun⟩ := (hf hp).fails fun hq => h ⟨hp, hq⟩
      rw [hx.holds hp]
      exact ⟨issues, hne, hrun⟩
    · obtain ⟨issues, hne, hrun⟩ := hx.fails hp
      rw [hrun]
      exact ⟨issues, hne, rfl⟩

end Decides

end Checked

/-! ## Changes that are accepted -/

namespace Settings

variable {α : Type}

/-- The option whose word a value is. -/
def named? (options : List (Text × α)) : Value → Option α
  | .text word => options.lookup word
  | _ => none

/-- What a value gives for a setting: the option whose word stands under its name. -/
def given? (options : List (Text × α)) (s : Store) (v : Value) (name : Text) : Option α :=
  (s.member name v).toOption.bind (named? options)

/-- A value gives nothing for a setting, or one of its options. -/
def Allows (options : List (Text × α)) (s : Store) (v : Value) (name : Text) : Prop :=
  s.member name v = .ok .undefined ∨ (given? options s v name).isSome = true

/-- A value by which settings can be changed: an object that is no list, with no other members than settings, and with
nothing else for them than their options. -/
structure Acceptable (s : Store) (v : Value) : Prop where
  object : v.object?.isSome = true
  noList : s.isList v = false
  names : ∀ name ∈ s.chainNames v, name ∈ Settings.names
  tokenFormat : Allows TokenFormat.words s v "tokenFormat"
  logLevel : Allows Level.words s v "logLevel"

instance (options : List (Text × α)) (s : Store) (v : Value) (name : Text) : Decidable (Allows options s v name) :=
  inferInstanceAs (Decidable (_ ∨ _))

/-- The conditions in the order in which they are looked at. -/
theorem acceptable_iff {s : Store} {v : Value} : Acceptable s v ↔
    (v.object?.isSome = true ∧ s.isList v = false) ∧
      (Allows TokenFormat.words s v "tokenFormat" ∧ Allows Level.words s v "logLevel") ∧
      ∀ name ∈ s.chainNames v, name ∈ Settings.names :=
  ⟨fun h => ⟨⟨h.object, h.noList⟩, ⟨h.tokenFormat, h.logLevel⟩, h.names⟩,
    fun ⟨⟨object, noList⟩, ⟨tokenFormat, logLevel⟩, names⟩ => ⟨object, noList, names, tokenFormat, logLevel⟩⟩

instance (s : Store) (v : Value) : Decidable (Acceptable s v) := decidable_of_iff _ acceptable_iff.symm

/-- The change that a value asks for. -/
def Change.asked (s : Store) (v : Value) : Change where
  tokenFormat := given? TokenFormat.words s v "tokenFormat"
  logLevel := given? Level.words s v "logLevel"

/-! ## Reading changes -/

variable {s : Store} {v : Value}

theorem decides_reader (s : Store) (v : Value) :
    (Decoder.reader s v).Decides (v.object?.isSome = true ∧ s.isList v = false)
      (fun name => (s.member name v).toOption.getD .undefined) := by
  rw [Decoder.reader]
  by_cases hrecord : s.isRecordLike v = true
  · rw [if_pos hrecord]
    refine (Checked.Decides.pass _).congr (iff_of_true trivial ?_)
    simpa [Store.isRecordLike] using hrecord
  · have hno : ¬ (v.object?.isSome = true ∧ s.isList v = false) := by simpa [Store.isRecordLike] using hrecord
    rw [if_neg hrecord]
    -- A value that is no object, or a list, always has a word for its type.
    have htype : ∃ word, s.typeName v = .ok word := by
      cases v with
      | object id =>
        have hlist : s.isList (.object id) = true := by simpa [Value.object?] using hno
        exact ⟨"array", by rw [Store.typeName, if_pos hlist]⟩
      | number n => cases n <;> exact ⟨_, rfl⟩
      | _ => exact ⟨_, rfl⟩
    obtain ⟨word, hword⟩ := htype
    refine ⟨fun h => absurd h hno, fun _ => ⟨[⟨[], .wrongType "object" word⟩], List.cons_ne_nil _ _, ?_⟩⟩
    rw [Decoder.wrongType, hword]
    rfl

theorem decides_optional (options : List (Text × α)) (s : Store) (w : Value) :
    (Decoder.optional (Decoder.option options) s w).Decides (w = .undefined ∨ (named? options w).isSome = true)
      (named? options w) := by
  have hno : ∀ {w : Value}, w ≠ .undefined → named? options w = none →
      ¬ (w = .undefined ∨ (named? options w).isSome = true) := by
    rintro w hw hnone (rfl | hsome)
    · exact hw rfl
    · rw [hnone] at hsome
      cases hsome
  cases w with
  | undefined => exact (Checked.Decides.pass none).congr (iff_of_true trivial (.inl rfl))
  | text word =>
    show (some <$> Decoder.option options s (.text word) : Checked (Option α)).Decides _ (options.lookup word)
    rw [Decoder.option]
    cases hlookup : options.lookup word with
    | some a =>
      refine (Checked.Decides.pass (some a)).congr (iff_of_true trivial (.inr ?_))
      rw [named?, hlookup]
      rfl
    | none =>
      exact (Checked.Decides.reject (.notAnOption _) none).congr
        (iff_of_false id (hno (fun h => by cases h) hlookup))
  | _ =>
    exact (Checked.Decides.reject (.notAnOption _) none).congr (iff_of_false id (hno (fun h => by cases h) rfl))

theorem decides_field (options : List (Text × α)) (s : Store) (name : Text) (hobject : v.object?.isSome = true) :
    (Decoder.field name (Decoder.optional (Decoder.option options)) s
      fun name => (s.member name v).toOption.getD .undefined).Decides (Allows options s v name)
      (given? options s v name) := by
  obtain ⟨w, hw⟩ : ∃ w, s.member name v = .ok w := by
    cases v with
    | object id => exact ⟨_, rfl⟩
    | _ => cases hobject
  rw [Decoder.field, Allows, given?, hw]
  refine ((decides_optional options s w).under name).congr (or_congr_left ?_)
  exact ⟨fun h => by rw [h], fun h => Except.ok.inj h⟩

theorem decides_onlySettings (s : Store) (v : Value) :
    (onlySettings s v).Decides (∀ name ∈ s.chainNames v, name ∈ Settings.names) () := by
  rw [onlySettings]
  cases hunknown : (s.chainNames v).filter (!names.contains ·) with
  | nil =>
    refine (Checked.Decides.pass ()).congr (iff_of_true trivial fun name hname => ?_)
    have := List.filter_eq_nil_iff.mp hunknown name hname
    simpa using this
  | cons name rest =>
    refine (Checked.Decides.reject (.unrecognizedKeys (name :: rest)) ()).congr (iff_of_false id fun hall => ?_)
    have hmem : name ∈ (s.chainNames v).filter (!names.contains ·) := hunknown ▸ List.mem_cons_self
    obtain ⟨hname, hno⟩ := List.mem_filter.mp hmem
    simp [hall name hname] at hno

/-- A change is read from what can be accepted, and from nothing else. -/
theorem decides_decoder (s : Store) (v : Value) : (Change.decoder s v).Decides (Acceptable s v) (.asked s v) := by
  refine ((decides_reader s v).bind fun hobject => ?_).congr acceptable_iff.symm
  have hboth := ((decides_field TokenFormat.words s "tokenFormat" hobject.1).both
    (decides_field Level.words s "logLevel" hobject.1)).both (decides_onlySettings s v)
  exact (hboth.bind fun _ => Checked.Decides.pass (Change.asked s v)).congr ⟨fun h => h.1, fun h => ⟨h, trivial⟩⟩

/-! ## Histories -/

/-- A call that changes settings. An update is given with the store in which its input was read. -/
inductive Request where
  | update (store : Store) (input : Value)
  | reset

namespace Request

def isReset : Request → Bool
  | .update .. => false
  | .reset => true

/-- What a call gives for a setting. An update that is refused gives nothing. -/
def given? (options : List (Text × α)) (name : Text) : Request → Option α
  | .update s input => if Acceptable s input then Settings.given? options s input name else none
  | .reset => none

end Request

/-- What the latest call since the last reset that gives anything for a setting has given for it. -/
def latest? (options : List (Text × α)) (name : Text) (history : List Request) : Option α :=
  (history.reverse.takeWhile (!·.isReset)).findSome? (·.given? options name)

/-- The settings after a history of calls; what no call has given is as in new sessions. -/
def ofHistory (history : List Request) : Settings where
  tokenFormat := (latest? TokenFormat.words "tokenFormat" history).getD ({} : Settings).tokenFormat
  logLevel := (latest? Level.words "logLevel" history).getD ({} : Settings).logLevel

theorem latest?_reset (options : List (Text × α)) (name : Text) (history : List Request) :
    latest? options name (history ++ [.reset]) = none := by
  rw [latest?, List.reverse_append]
  rfl

theorem latest?_update (options : List (Text × α)) (name : Text) (history : List Request) (s : Store) (input : Value) :
    latest? options name (history ++ [.update s input]) =
      ((Request.update s input).given? options name).or (latest? options name history) := by
  rw [latest?, latest?, List.reverse_append, List.reverse_singleton, List.singleton_append,
    List.takeWhile_cons_of_pos rfl, List.findSome?_cons]
  cases (Request.update s input).given? options name <;> rfl

theorem ofHistory_reset (history : List Request) : ofHistory (history ++ [.reset]) = {} := by
  rw [ofHistory, latest?_reset, latest?_reset]
  rfl

/-- An update that is accepted is applied to the settings before it. -/
theorem ofHistory_accepted (history : List Request) {input : Value} (h : Acceptable s input) :
    ofHistory (history ++ [.update s input]) = (ofHistory history).apply (.asked s input) := by
  have hor : ∀ {β : Type} (new old : Option β) (d : β), (new.or old).getD d = new.getD (old.getD d) := by
    intro β new old d
    cases new <;> rfl
  rw [ofHistory, latest?_update, latest?_update, Request.given?, Request.given?, if_pos h, if_pos h, hor, hor]
  rfl

theorem ofHistory_refused (history : List Request) {input : Value} (h : ¬ Acceptable s input) :
    ofHistory (history ++ [.update s input]) = ofHistory history := by
  rw [ofHistory, latest?_update, latest?_update, Request.given?, Request.given?, if_neg h, if_neg h]
  rfl

/-- Settings show as JSON on a line. -/
theorem valueText_toData (s : Store) (settings : Settings) :
    ∃ json, settings.toData.jsonText s .compact = .ok (some json) ∧
      LogLine.valueText s settings.toData = .ok json := by
  rcases settings with ⟨format, level⟩
  cases format <;> cases level <;> exact ⟨_, rfl, rfl⟩

end Settings

namespace Session

open Settings

variable {σ τ : Session} {tags : Members Text} {input : Value}

/-! ## Updates -/

/-- A session that can report new settings: the logger for them is in order, and the clock shows an instant. -/
structure Vocal (tags : Members Text) (σ : Session) : Prop where
  stamp : ∃ stamp, Timestamp.ofInstant (Timestamp.instant σ.journal.now) = .ok stamp
  config : σ.store.HasLogger configLogger tags

/-- A line of the level for information by the logger for settings, which shows its tags and the settings. -/
def ShowsSettings (tags : Members Text) (s : Store) (settings : Settings) (line : Text) : Prop :=
  ∃ timestamp elapsed json, settings.toData.jsonText s .compact = .ok (some json) ∧
    line = LogLine.compose .info timestamp elapsed (LogLine.fieldsText (tags.set "settings" json))
      (some "Settings updated")

/-- What an accepted update leaves: new settings with their level in force. If that level admits information, one line
has been written, which shows the settings, and otherwise nothing. -/
structure Adopts (tags : Members Text) (σ : Session) (input : Value) (τ : Session) : Prop where
  settings : τ.settings = σ.settings.apply (.asked σ.store input)
  level : τ.journal.threshold = .level τ.settings.logLevel
  store : τ.store = σ.store
  now : τ.journal.now = σ.journal.now
  reported : τ.settings.logLevel.severity ≤ Level.info.severity →
    ∃ line, ShowsSettings tags σ.store τ.settings line ∧ τ.journal.lines = σ.journal.lines.push line
  silent : ¬ τ.settings.logLevel.severity ≤ Level.info.severity →
    τ.journal.lines = σ.journal.lines ∧ τ.journal.last = σ.journal.last

theorem updateSettings_refused (h : ¬ Acceptable σ.store input) :
    ∃ issues, issues ≠ [] ∧ updateSettings input σ = (.error (.fault (.invalidSettings issues)), σ) := by
  obtain ⟨issues, hne, hrun⟩ := (decides_decoder σ.store input).fails h
  have hread := reading_run (fun s => (Change.decoder s input).run) σ
  rw [hrun] at hread
  refine ⟨issues, hne, ?_⟩
  rw [updateSettings, bind_ok hread]
  rfl

theorem updateSettings_accepted (h : Acceptable σ.store input) (hσ : Vocal tags σ) :
    ∃ τ, updateSettings input σ = (.ok τ.settings, τ) ∧ Adopts tags σ input τ := by
  have hread := reading_run (fun s => (Change.decoder s input).run) σ
  rw [(decides_decoder σ.store input).holds h] at hread
  -- The level is set before the change is reported.
  let settings := σ.settings.apply (.asked σ.store input)
  let υ : Session := { σ with settings, journal := { σ.journal with threshold := .level settings.logLevel } }
  have hupdate : updateSettings input σ =
      (announce configLogger .info "Settings updated" [("settings", settings.toData)] >>= fun _ => pure settings) υ := by
    rw [updateSettings, bind_ok hread]
    rfl
  let report : Store → JournalM Unit := fun s =>
    Journal.write s configLogger .info (.ofText "Settings updated") [("settings", settings.toData)]
  have hannounce : announce configLogger .info "Settings updated" [("settings", settings.toData)] υ =
      (Attempt.ofMisuse (report σ.store υ.journal).1, { υ with journal := (report σ.store υ.journal).2 }) :=
    journaling_run report υ
  obtain ⟨stamp, hstamp⟩ := hσ.stamp
  obtain ⟨json, hjson, htext⟩ := valueText_toData σ.store settings
  rw [hupdate]
  by_cases hle : settings.logLevel.severity ≤ Level.info.severity
  · have htags : LogLine.tagsText σ.store (LogLine.shownTags (LogLine.ownTags tags) [("settings", settings.toData)]) =
        .ok (LogLine.fieldsText (tags.set "settings" json)) := by
      rw [LogLine.tagsText_set _ _ _ rfl, htext]
      rfl
    have hwrite := Journal.write_stamped (j := υ.journal) hσ.config rfl hle htags hstamp
      (show LogLine.messageText? σ.store (.ofText "Settings updated") = .ok (some "Settings updated") from rfl)
    rw [show report σ.store υ.journal = _ from hwrite] at hannounce
    exact ⟨{ υ with journal := _ }, bind_ok hannounce, rfl, rfl, rfl, rfl,
      fun _ => ⟨_, ⟨stamp, _, json, hjson, rfl⟩, rfl⟩, fun hno => absurd hle hno⟩
  · have hwrite : report σ.store υ.journal = (.ok (), υ.journal) := Journal.write_below hσ.config rfl hle
    rw [hwrite] at hannounce
    exact ⟨υ, bind_ok hannounce, rfl, rfl, rfl, rfl, fun h => absurd h hle, fun _ => ⟨rfl, rfl⟩⟩

/-! ## Runs -/

/-- A session after a history of updates and resets. Meanwhile anything else can be done, as long as settings stay as
they are and new ones can be reported. -/
inductive Configured (tags : Members Text) : List Request → Session → Prop
  | start {σ : Session} (settings : σ.settings = {}) (vocal : Vocal tags σ) : Configured tags [] σ
  | meanwhile {history : List Request} {σ τ : Session} (before : Configured tags history σ)
      (settings : τ.settings = σ.settings) (vocal : Vocal tags τ) : Configured tags history τ
  | update {history : List Request} {σ : Session} (before : Configured tags history σ) (input : Value) :
      Configured tags (history ++ [.update σ.store input]) (updateSettings input σ).2
  | reset {history : List Request} {σ : Session} (before : Configured tags history σ) :
      Configured tags (history ++ [.reset]) (resetSettings σ).2

theorem Configured.vocal {history : List Request} (h : Configured tags history σ) : Vocal tags σ := by
  induction h with
  | start settings vocal => exact vocal
  | meanwhile _ _ vocal _ => exact vocal
  | @update history σ _ input ih =>
    by_cases h : Acceptable σ.store input
    · obtain ⟨τ, hrun, hadopts⟩ := updateSettings_accepted h ih
      rw [hrun]
      exact ⟨by rw [hadopts.now]; exact ih.stamp, by rw [hadopts.store]; exact ih.config⟩
    · obtain ⟨issues, -, hrun⟩ := updateSettings_refused h
      rw [hrun]
      exact ih
  | reset _ ih => exact ⟨ih.stamp, ih.config⟩

/-- The settings are those that the history has given. -/
theorem Configured.settings_eq {history : List Request} (h : Configured tags history σ) :
    σ.settings = .ofHistory history := by
  induction h with
  | start settings _ => exact settings
  | meanwhile _ settings _ ih => rw [settings, ih]
  | @update history σ before input ih =>
    by_cases h : Acceptable σ.store input
    · obtain ⟨τ, hrun, hadopts⟩ := updateSettings_accepted h before.vocal
      rw [hrun, ofHistory_accepted history h, hadopts.settings, ih]
    · obtain ⟨issues, -, hrun⟩ := updateSettings_refused h
      rw [hrun, ofHistory_refused history h, ih]
  | reset _ _ => exact (ofHistory_reset _).symm

/-- After any history, each setting is what the latest accepted update since the last reset has given for it. The next
update is accepted if and only if its input is acceptable; a refused one reports issues and changes nothing, and an
accepted one is reported if the new level admits that. -/
theorem Configured.merged {history : List Request} (h : Configured tags history σ) :
    σ.settings = .ofHistory history ∧ ∀ input,
      ((∃ settings, (updateSettings input σ).1 = .ok settings) ↔ Acceptable σ.store input) ∧
      (¬ Acceptable σ.store input →
        ∃ issues, issues ≠ [] ∧ updateSettings input σ = (.error (.fault (.invalidSettings issues)), σ)) ∧
      (Acceptable σ.store input →
        ∃ τ, updateSettings input σ = (.ok τ.settings, τ) ∧ Adopts tags σ input τ) := by
  refine ⟨h.settings_eq, fun input => ⟨⟨fun ⟨settings, hok⟩ => ?_, fun hacc => ?_⟩, updateSettings_refused,
    fun hacc => updateSettings_accepted hacc h.vocal⟩⟩
  · by_contra hno
    obtain ⟨issues, -, hrun⟩ := updateSettings_refused hno
    rw [hrun] at hok
    cases hok
  · obtain ⟨τ, hrun, -⟩ := updateSettings_accepted hacc h.vocal
    exact ⟨τ.settings, by rw [hrun]⟩

/-! ### A history -/

/-- A new session with three values: one that gives a token format and no level, one that gives a level, and one that
gives a word that is no level. -/
def proposed : Session :=
  { start 0 with
    store := (start 0).store.addAll
      [.ofMembers [("tokenFormat", .text "compact"), ("logLevel", .undefined)], .ofMembers [("logLevel", .text "DEBUG")],
        .ofMembers [("tokenFormat", .text "full"), ("logLevel", .text "TRACE")]] }

theorem vocal_proposed : Vocal [("service", "config")] proposed :=
  ⟨⟨_, rfl⟩, _, _, rfl, rfl, ⟨_, rfl, fun level => by cases level <;> exact ⟨_, rfl⟩⟩, rfl⟩

/-- The session after an update of the level, a reset, an update of the format and one that is refused. -/
def reconfigured : Session :=
  (updateSettings (.object 31)
    (updateSettings (.object 29) (resetSettings (updateSettings (.object 30) proposed).2).2).2).2

/-- Of the two updates that were accepted only the one since the reset counts. -/
theorem merged_reconfigured : ∃ history, history.length = 4 ∧ Configured [("service", "config")] history reconfigured ∧
    reconfigured.settings = .ofHistory history ∧ reconfigured.settings = ⟨.compact, .info⟩ ∧
    ¬ Acceptable reconfigured.store (.object 31) ∧ ∃ issues, issues ≠ [] ∧
      updateSettings (.object 31) reconfigured = (.error (.fault (.invalidSettings issues)), reconfigured) := by
  have hrun := (((Configured.start rfl vocal_proposed).update (.object 30)).reset.update (.object 29)).update (.object 31)
  obtain ⟨hsettings, hnext⟩ := Configured.merged hrun
  have hno : ¬ Acceptable reconfigured.store (.object 31) := by decide +kernel
  exact ⟨_, rfl, hrun, hsettings, by decide +kernel, hno, (hnext (.object 31)).2.1 hno⟩

end Session

end LosslessSyntax
