import LosslessSyntax.Proofs.Configuring

/-!
# The level in force

A level can be in force for the time of some part of a run, and the one from before is in force again afterwards
(`Session.threshold_withThreshold`). Settings that change in such a part stay changed, while the level that they bring
with them does not stay in force. So the level in force outside of all parts is the one that was last configured out
there (`Script.Passes.in_force`), also after a failure (`Script.passes_run`). It need not be the one that is configured
now (`Script.overridden_in_part`).
-/

namespace LosslessSyntax

open Settings

/-! ## Writing -/

theorem Journal.threshold_write (s : Store) (logger : Value) (level : Level) (message : Data) (extra : Members Data)
    (j : Journal) : (write s logger level message extra j).2.threshold = j.threshold := by
  obtain ⟨last, lines, hrun⟩ := write_relines s logger level message extra j
  rw [hrun]

namespace Session

variable {α : Type}

theorem threshold_announce (logger : Value) (level : Level) (message : Text) (extra : Members Data) (σ : Session) :
    (announce logger level message extra σ).2.journal.threshold = σ.journal.threshold := by
  rw [announce, journaling_run]
  exact Journal.threshold_write ..

theorem settings_announce (logger : Value) (level : Level) (message : Text) (extra : Members Data) (σ : Session) :
    (announce logger level message extra σ).2.settings = σ.settings := by
  rw [announce, journaling_run]

/-- After an accepted update the new level is in force, whether or not it could be reported. -/
theorem threshold_updateSettings {σ : Session} {input : Value} (h : Acceptable σ.store input) :
    (updateSettings input σ).2.journal.threshold = .level (updateSettings input σ).2.settings.logLevel := by
  have hread := reading_run (fun s => (Change.decoder s input).run) σ
  rw [(decides_decoder σ.store input).holds h] at hread
  let settings := σ.settings.apply (.asked σ.store input)
  let υ : Session := { σ with settings, journal := { σ.journal with threshold := .level settings.logLevel } }
  let report := announce configLogger .info "Settings updated" [("settings", settings.toData)]
  have hupdate : updateSettings input σ = (report >>= fun _ => pure settings) υ := by
    rw [updateSettings, bind_ok hread]
    rfl
  have hafter : (updateSettings input σ).2 = (report υ).2 := by
    rw [hupdate]
    rcases hreport : report υ with ⟨failure | u, τ⟩
    · rw [bind_error hreport]
    · rw [bind_ok hreport]
      rfl
  rw [hafter, threshold_announce, settings_announce]

theorem tryCatch_ok {work : SessionM α} {handle : Failure → SessionM α} {σ τ : Session} {a : α}
    (h : work σ = (.ok a, τ)) : (tryCatch work handle : SessionM α) σ = (.ok a, τ) := by
  simp only [tryCatch, tryCatchThe, MonadExceptOf.tryCatch, ExceptT.tryCatch, ExceptT.mk, bind, StateT.bind, h]
  rfl

theorem tryCatch_error {work : SessionM α} {handle : Failure → SessionM α} {σ τ : Session} {failure : Failure}
    (h : work σ = (.error failure, τ)) : (tryCatch work handle : SessionM α) σ = handle failure τ := by
  simp only [tryCatch, tryCatchThe, MonadExceptOf.tryCatch, ExceptT.tryCatch, ExceptT.mk, bind, StateT.bind, h]

/-- The level from before is in force again, whatever the work does and however it ends. -/
theorem threshold_withThreshold (threshold : Threshold) (work : SessionM α) (σ : Session) :
    (withThreshold threshold work σ).2.journal.threshold = σ.journal.threshold := by
  let υ : Session := { σ with journal := { σ.journal with threshold } }
  have hset : setThreshold threshold σ = (.ok (), υ) := rfl
  have hget : (get : SessionM Session) σ = (.ok σ, σ) := rfl
  rw [withThreshold, bind_ok hget, bind_ok hset]
  rcases hwork : work υ with ⟨failure | a, τ⟩
  · rw [bind_error ((tryCatch_error (bind_error hwork)).trans rfl)]
  · rw [bind_ok (tryCatch_ok ((bind_ok hwork).trans rfl))]
    rfl

end Session

/-! ## Runs -/

/-- A run of updates and resets, parts of which have a level of their own. What comes next can depend on what was come
to before, so that failures can be caught or handed on. Meanwhile objects can be made and changed, and time can pass. -/
inductive Script where
  | done
  | fail (failure : Failure)
  | update (input : Value) (next : Except Failure Settings → Script)
  | reset (next : Script)
  | part (threshold : Threshold) (body : Script) (next : Except Failure Unit → Script)
  | meanwhile (change : Store → Store) (millis : Number) (next : Script)

/-- What is done in a run. -/
def Script.run : Script → SessionM Unit
  | .done => return ()
  | .fail failure => throw failure
  | .update input next => do (next (← observing (Session.updateSettings input))).run
  | .reset next => do
    Session.resetSettings
    next.run
  | .part threshold body next => do (next (← observing (Session.withThreshold threshold body.run))).run
  | .meanwhile change millis next => do
    modify fun session => { session with store := change session.store }
    Session.advance millis
    next.run

/-- A moment outside of all parts: the session, the level that was configured when settings were last changed outside of
all parts, and whether every part since then has left the configured level as it was. -/
structure Moment where
  session : Session
  configured : Level
  kept : Prop

namespace Moment

/-- The start of a new session. -/
def start (now : Number) : Moment := ⟨.start now, .info, True⟩

/-- After an update. One that is refused has configured nothing. -/
def update (m : Moment) (input : Value) : Moment :=
  let after := (Session.updateSettings input m.session).2
  ⟨after, if Acceptable m.session.store input then after.settings.logLevel else m.configured,
    Acceptable m.session.store input ∨ m.kept⟩

def reset (m : Moment) : Moment :=
  let after := (Session.resetSettings m.session).2
  ⟨after, after.settings.logLevel, True⟩

/-- After a part with a level of its own. -/
def part (m : Moment) (threshold : Threshold) (body : Script) : Moment :=
  let after := (Session.withThreshold threshold body.run m.session).2
  ⟨after, m.configured, m.kept ∧ after.settings.logLevel = m.session.settings.logLevel⟩

def meanwhile (m : Moment) (change : Store → Store) (millis : Number) : Moment :=
  let σ := m.session
  { m with session := { σ with
      store := change σ.store
      journal := { σ.journal with now := σ.journal.now + millis } } }

/-- The level in force is the one that was last configured out here, and it is still configured if no part has changed
that. -/
structure InForce (m : Moment) : Prop where
  level : m.session.journal.threshold = .level m.configured
  kept : m.kept → m.configured = m.session.settings.logLevel

theorem inForce_start (now : Number) : (start now).InForce := ⟨rfl, fun _ => rfl⟩

variable {m : Moment}

theorem InForce.update (h : m.InForce) (input : Value) : (m.update input).InForce := by
  by_cases hacc : Acceptable m.session.store input
  · refine ⟨?_, fun _ => if_pos hacc⟩
    show _ = Threshold.level (if _ then _ else _)
    rw [if_pos hacc]
    exact Session.threshold_updateSettings hacc
  · obtain ⟨issues, -, hrun⟩ := Session.updateSettings_refused hacc
    have hupdate : m.update input = ⟨m.session, m.configured, Acceptable m.session.store input ∨ m.kept⟩ := by
      simp only [Moment.update, hrun, if_neg hacc]
    rw [hupdate]
    exact ⟨h.level, fun hkept => h.kept (hkept.resolve_left hacc)⟩

theorem inForce_reset (m : Moment) : m.reset.InForce := ⟨rfl, fun _ => rfl⟩

theorem InForce.part (h : m.InForce) (threshold : Threshold) (body : Script) : (m.part threshold body).InForce :=
  ⟨(Session.threshold_withThreshold threshold body.run m.session).trans h.level,
    fun hkept => (h.kept hkept.1).trans hkept.2.symm⟩

theorem InForce.meanwhile (h : m.InForce) (change : Store → Store) (millis : Number) :
    (m.meanwhile change millis).InForce := ⟨h.level, h.kept⟩

end Moment

namespace Script

/-- The moments of a run that are outside of all its parts. -/
inductive Passes : Script → Moment → Moment → Prop
  | here {c : Script} {m : Moment} : Passes c m m
  | update {m m' : Moment} {input : Value} {next : Except Failure Settings → Script}
      (rest : Passes (next (Session.updateSettings input m.session).1) (m.update input) m') :
      Passes (.update input next) m m'
  | reset {m m' : Moment} {next : Script} (rest : Passes next m.reset m') : Passes (.reset next) m m'
  | part {m m' : Moment} {threshold : Threshold} {body : Script} {next : Except Failure Unit → Script}
      (rest : Passes (next (Session.withThreshold threshold body.run m.session).1) (m.part threshold body) m') :
      Passes (.part threshold body next) m m'
  | meanwhile {m m' : Moment} {change : Store → Store} {millis : Number} {next : Script}
      (rest : Passes next (m.meanwhile change millis) m') : Passes (.meanwhile change millis next) m m'

theorem Passes.inForce {c : Script} {m m' : Moment} (h : Passes c m m') (hm : m.InForce) : m'.InForce := by
  induction h with
  | here => exact hm
  | update _ ih => exact ih (hm.update _)
  | reset _ ih => exact ih (Moment.inForce_reset _)
  | part _ ih => exact ih (hm.part _ _)
  | meanwhile _ ih => exact ih (hm.meanwhile _ _)

/-- The end of a run is outside of all its parts, also if it fails. -/
theorem passes_run (c : Script) (m : Moment) : ∃ m', Passes c m m' ∧ m'.session = (c.run m.session).2 := by
  induction c generalizing m with
  | done => exact ⟨m, .here, rfl⟩
  | fail failure => exact ⟨m, .here, rfl⟩
  | update input next ih =>
    obtain ⟨m', hpass, hend⟩ := ih (Session.updateSettings input m.session).1 (m.update input)
    refine ⟨m', .update hpass, ?_⟩
    rw [run, Session.bind_ok (Session.observing_run _ _)]
    exact hend
  | reset next ih =>
    obtain ⟨m', hpass, hend⟩ := ih m.reset
    exact ⟨m', .reset hpass, hend⟩
  | part threshold body next _ ih =>
    obtain ⟨m', hpass, hend⟩ := ih (Session.withThreshold threshold body.run m.session).1 (m.part threshold body)
    refine ⟨m', .part hpass, ?_⟩
    rw [run, Session.bind_ok (Session.observing_run _ _)]
    exact hend
  | meanwhile change millis next ih =>
    obtain ⟨m', hpass, hend⟩ := ih (m.meanwhile change millis)
    exact ⟨m', .meanwhile hpass, hend⟩

/-- Whenever a run is outside of all its parts, the level in force is the one that was configured when settings were last
changed out there. It is the one that is configured now, if no part since then has left another. -/
theorem Passes.in_force {c : Script} {now : Number} {m : Moment} (h : Passes c (.start now) m) :
    m.session.journal.threshold = .level m.configured ∧
      (m.kept → m.session.journal.threshold = .level m.session.settings.logLevel) := by
  have hforce := h.inForce (Moment.inForce_start now)
  refine ⟨hforce.level, fun hkept => ?_⟩
  rw [hforce.level, hforce.kept hkept]

/-- A run that makes a record of settings, has a part which may use it, and then goes on. -/
def supplying (record : Members Value) (threshold : Threshold) (body next : Script) : Script :=
  .meanwhile (·.addAll [.ofMembers record]) 0 (.part threshold body fun _ => next)

/-- A run with a part that fails, and with an update after it. -/
def recovering : Script :=
  supplying [("logLevel", .text "DEBUG")] (.level .error) (.fail (.fault (.invalidSettings [])))
    (.update (.object 29) fun _ => .done)

theorem in_force_recovering : ∃ m, Passes recovering (.start 0) m ∧ m.kept ∧ m.session.settings.logLevel = .debug ∧
    m.session.journal.threshold = .level m.session.settings.logLevel := by
  have hpass : Passes recovering (.start 0) _ := .meanwhile (.part (.update .here))
  refine ⟨_, hpass, .inl ?_, by decide +kernel, (Passes.in_force hpass).2 (.inl ?_)⟩ <;> decide +kernel

/-- An update in a part with a level of its own stays, but the level that it asks for is not in force afterwards. -/
theorem overridden_in_part : ∃ m,
    Passes (supplying [("logLevel", .text "ERROR")] (.level .debug) (.update (.object 29) fun _ => .done) .done)
      (.start 0) m ∧
    m.session.journal.threshold = .level .info ∧ m.session.settings.logLevel = .error :=
  ⟨_, .meanwhile (.part .here), rfl, by decide +kernel⟩

end Script

end LosslessSyntax
