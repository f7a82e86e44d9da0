import LosslessSyntax.Journal.Line
import LosslessSyntax.Store.Assign

/-!
# The journal

The journal holds the level in force, the clock and the lines written so far. A logger is an object of the store with
tags, which are set as those of any record are; loggers that are made for a service are kept by its name and made once.

Writing can fail on a tag or a message that has no text, or at an instant that has no timestamp, and then no line is
written.
-/

namespace LosslessSyntax

namespace Store

/-! ## Loggers -/

/-- The operations of a logger. -/
def loggerOperations : List Text :=
  ["debug", "info", "warn", "error", "tag", "clone", "time"].map Text.ofString

/-- Makes a logger of the given tags. -/
def addLogger (s : Store) (tags : Members Value) : ObjectId × Store :=
  let (logger, s) := s.add (.logger (operationMembers loggerOperations))
  (logger, s.keep logger ({ · with tags := { members := tags } }))

theorem addLogger_snd (s : Store) (tags : Members Value) : (s.addLogger tags).2 =
    (s.add (.logger (operationMembers loggerOperations))).2.keep s.size ({ · with tags := { members := tags } }) := rfl

/-- A logger and its tags. -/
structure LoggerRef where
  logger : ObjectId
  tags : Tags

/-- The logger that answers to an operation asked of a value: the value itself, or the logger that it extends. -/
def loggerFor (s : Store) (v : Value) (operation : Text) : Except Misuse LoggerRef := do
  match v with
  | .undefined | .null => throw .noMembers
  | .object id =>
    match s.seek id operation with
    | some (holder, .operation _) =>
      match s.object? holder with
      | some (.logger _) => return ⟨holder, (s.kept holder).tags⟩
      | _ => throw .noOperation
    | _ => throw .noOperation
  | _ => throw .noOperation

/-- Sets a tag of a logger. The tags are a record of the store only for as long as that takes. -/
def setTag (s : Store) (logger : Value) (name : Text) (value : Value) : Except Misuse Store := do
  let found ← s.loggerFor logger "tag"
  let (record, t) := s.add (.ofMembers found.tags.members)
  let t ← (t.modify record fun c => { c with base := found.tags.base }).assignTo record name value
  let tags := (t.cell? record).elim found.tags fun c => ⟨c.object.listed, c.base⟩
  return (t.take record).keep found.logger ({ · with tags })

/-- Makes a logger with the tags that another has now. -/
def cloneLogger (s : Store) (logger : Value) : Except Misuse (ObjectId × Store) := do
  return s.addLogger (← s.loggerFor logger "clone").tags.members

end Store

/-- Instants are in milliseconds. `last` is the instant of the line before. -/
structure Journal where
  threshold : Threshold
  now : Number
  last : Number
  services : List (Text × ObjectId)
  lines : Array Text

/-- A running timer: what it writes when it stops, and when it was started. -/
structure Timer where
  logger : Value
  message : Value
  extra : Value
  start : Number

/-- Work on the journal, which may fail after a part of it is done. -/
abbrev JournalM := ExceptT Misuse (StateM Journal)

namespace Journal

/-- A journal without lines or loggers, at an instant. -/
def empty (now : Number) : Journal :=
  { threshold := .level .info, now, last := now, services := [], lines := #[] }

/-- The service that tags name, if it is given as text. -/
def service? (s : Store) (tags : Value) : Option Text :=
  match s.member "service" tags with
  | .ok (.text service) => some service
  | _ => none

/-- The logger for the given tags, of which it has a copy. A service that has a logger already gets the same one, and the
tags are ignored. -/
def create (j : Journal) (s : Store) (tags : Value) : ObjectId × Journal × Store :=
  let make := s.addLogger (.ofList (s.listed tags))
  match service? s tags with
  | none => (make.1, j, make.2)
  | some service =>
    match j.services.lookup service with
    | some id => (id, j, s)
    | none => (make.1, { j with services := j.services ++ [(service, make.1)] }, make.2)

/-! ## Writing -/

/-- The members that a value lists, as data. -/
def dataMembers (s : Store) (v : Value) : Members Data := (Data.leaf v).entries s

/-- Writes a line, if its level is admitted. Time is counted from it on even if its instant or its message turns out
to have no text. -/
def write (s : Store) (logger : Value) (level : Level) (message : Data) (extra : Members Data) : JournalM Unit := do
  let found ← MonadExcept.ofExcept (s.loggerFor logger level.operation)
  let j ← get
  if ← MonadExcept.ofExcept (j.threshold.admits s level) then
    let own := found.tags.members.map fun (name, value) => (name, Data.leaf value)
    let tagsText ← MonadExcept.ofExcept (LogLine.tagsText s (LogLine.shownTags own extra))
    let instant := Timestamp.instant j.now
    set { j with last := instant }
    let timestamp ← MonadExcept.ofExcept (Timestamp.ofInstant instant)
    let message ← MonadExcept.ofExcept (LogLine.messageText? s message)
    let line := LogLine.compose level timestamp (instant - j.last) tagsText message
    set { j with last := instant, lines := j.lines.push line }

/-- Starts a timer and says so. -/
def startTimer (s : Store) (logger message extra : Value) : JournalM Timer := do
  let logger := Value.object (← MonadExcept.ofExcept (s.loggerFor logger "time")).logger
  let start := (← get).now
  write s logger .debug (.leaf message) (Members.merge [("status", .ofText "started")] (dataMembers s extra))
  return { logger, message, extra, start }

/-- Says how long a timer has been running. -/
def stopTimer (s : Store) (t : Timer) : JournalM Unit := do
  let elapsed := (← get).now - t.start
  let duration : Text := Text.ofString elapsed.text ++ "ms"
  write s t.logger .debug (.leaf t.message)
    (Members.merge [("status", .ofText "completed"), ("duration", .ofText duration)] (dataMembers s t.extra))

end Journal

end LosslessSyntax
