import LosslessSyntax.Calc.Source
import LosslessSyntax.Journal.Basic
import LosslessSyntax.Settings
import LosslessSyntax.Tree.Locate
import LosslessSyntax.Tree.Walk

/-!
# Sessions

A session is everything that lasts between operations: the store, the journal and the settings. Trees are built and read
in the session itself, so that each fault of a tree is reported in the journal where it is built, by the logger for
trees.

The slots of a variant are listed, and that is reported, when they are first asked for. Where reading cannot go on
before some slots are listed, the session lists them and reads again from the start.
-/

namespace LosslessSyntax

structure Session where
  store : Store
  journal : Journal
  settings : Settings

/-- Work in a session, which may fail after a part of it is done. -/
abbrev SessionM := ExceptT Failure (StateM Session)

namespace Session

/-! ## Loggers of the library -/

/-- The services of the library. -/
def services : List Text := ["config", "grammar", "schema", "tree"].map Text.ofString

/-- The logger of a service of the library. In every store, the calculator's grammar comes first after the grounds, and
then the loggers. -/
def serviceLogger (position : Nat) : Value := .object (Calc.grammarId + Calc.grammar.objects.length + position)

def configLogger : Value := serviceLogger 0

def grammarLogger : Value := serviceLogger 1

def schemaLogger : Value := serviceLogger 2

def treeLogger : Value := serviceLogger 3

/-- A store and a journal with the logger of one more service. -/
def addService (state : Journal × Store) (service : Text) : Journal × Store :=
  let (id, store) := state.2.addLogger [("service", .text service)]
  ({ state.1 with services := state.1.services ++ [(service, id)] }, store)

/-- Keeps the slot names of a variant. -/
def keepSlotNames (s : Store) (variant : ObjectId) (names : List Text) : Store :=
  s.keep variant ({ · with slotNames := some names })

/-- A store with the grammar of the calculator language, whose slots have been listed. -/
def calcStore : Store :=
  Calc.grammar.variants.foldl (fun s v => keepSlotNames s v.self v.slotNames) (Store.empty.addAll Calc.grammar.objects)

/-- A new session at an instant. The grammar of the calculator language is there. -/
def start (now : Number) : Session :=
  let (journal, store) := services.foldl addService (Journal.empty now, calcStore)
  { store, journal, settings := {} }

/-! ## Stores and journals -/

variable {α : Type}

/-- Takes over the outcome of a computation. -/
def attempt (outcome : Attempt α) : SessionM α := MonadExcept.ofExcept outcome

/-- Takes over the outcome of reading values. -/
def reading (read : Store → Except Misuse α) : SessionM α := do
  attempt (Attempt.ofMisuse (read (← get).store))

/-- Changes the store, which stays as it was if that fails. -/
def changing (change : Store → Except Misuse (α × Store)) : SessionM α := do
  let (a, store) ← reading change
  modify fun session => { session with store }
  return a

/-- Works on the journal of the session. -/
def journaling (work : Store → JournalM α) : SessionM α := do
  let session ← get
  let (result, journal) := (work session.store).run session.journal
  set { session with journal }
  attempt (Attempt.ofMisuse result)

/-- Writes a line of the library's own. -/
def announce (logger : Value) (level : Level) (message : Text) (extra : Members Data) : SessionM Unit :=
  journaling fun s => Journal.write s logger level (.ofText message) extra

def setThreshold (threshold : Threshold) : SessionM Unit :=
  modify fun session => { session with journal := { session.journal with threshold } }

/-- Works with another threshold; the one from before is in force again afterwards, also after a failure. -/
def withThreshold (threshold : Threshold) (work : SessionM α) : SessionM α := do
  let before := (← get).journal.threshold
  setThreshold threshold
  try
    let a ← work
    setThreshold before
    return a
  catch failure =>
    setThreshold before
    throw failure

/-- Moves the clock. -/
def advance (millis : Number) : SessionM Unit :=
  modify fun session => { session with journal := { session.journal with now := session.journal.now + millis } }

/-- The logger for the given tags. -/
def createLogger (tags : Value) : SessionM ObjectId := do
  let session ← get
  let (id, journal, store) := session.journal.create session.store tags
  set { session with journal, store }
  return id

/-- Makes a logger with the tags that another has now. -/
def cloneLogger (logger : Value) : SessionM ObjectId := changing (·.cloneLogger logger)

/-- Sets a tag of a logger. -/
def tagLogger (logger : Value) (name : Text) (value : Value) : SessionM Unit :=
  changing fun s => return ((), ← s.setTag logger name value)

/-! ## Registries -/

/-- Gives an object the next number. -/
def allocate (o : Object) : SessionM ObjectId :=
  modifyGet fun session => ((session.store.add o).1, { session with store := (session.store.add o).2 })

/-- Makes an object of a registry, if there is one. -/
def addRegistry (make : Store → Attempt Registry) : SessionM (ObjectId × Registry) := do
  let r ← attempt (make (← get).store)
  return (← allocate (.registry r), r)

/-! ## Settings -/

/-- Changes settings as an unchecked value asks. The new log level is in force before the change is reported. -/
def updateSettings (input : Value) : SessionM Settings := do
  match ← reading fun s => (Settings.Change.decoder s input).run with
  | .error issues => throw (.fault (.invalidSettings issues))
  | .ok change =>
    let settings := (← get).settings.apply change
    modify fun session => { session with settings }
    setThreshold (.level settings.logLevel)
    announce configLogger .info "Settings updated" [("settings", settings.toData)]
    return settings

def resetSettings : SessionM Unit := do
  modify fun session => { session with settings := {} }
  setThreshold (.level ({} : Settings).logLevel)

/-! ## Grammars -/

/-- Defines a grammar. -/
def addGrammar (d : Definition) : SessionM Grammar := do
  let (grammar, store) ← attempt ((← get).store.addGrammar d)
  announce grammarLogger .info "Defined"
    [("nodeKinds", .leaf (.ofNat grammar.nodeKinds.size)), ("tokenKinds", .leaf (.ofNat grammar.tokenKinds.size))]
  modify fun session => { session with store }
  return grammar

/-- Defines a grammar from a value, without checking its shape first. -/
def defineGrammar (input : Value) : SessionM Grammar := do
  addGrammar (← attempt (Definition.readTrusting (← get).store input))

/-- Defines a grammar from a value, reporting all issues of its shape. -/
def loadGrammar (input : Value) : SessionM Grammar := do
  addGrammar (← attempt (Definition.ofValue (← get).store input))

/-! ## Slot names -/

/-- Lists the slots of an object as those of a variant, and says so. -/
def listSlots (variant : ObjectId) : SessionM (List Text) := do
  let layout ← reading (·.member "layout" (.object variant))
  if layout.isMissing then throw (.misuse .noMembers)
  let names := (← get).store.names layout
  modify fun session => { session with store := keepSlotNames session.store variant names }
  let name ← reading (·.member "name" (.object variant))
  announce schemaLogger .debug "Cached slot layout"
    [("variant", .leaf name), ("slots", .leaf (.ofNat names.length))]
  return names

/-- The slot names of a variant, which are listed when they are first asked for. -/
def slotNames (v : Variant) : SessionM (List Text) := do
  match ((← get).store.kept v.self).slotNames with
  | some names => return names
  | none => listSlots v.self

/-! ## Trees -/

/-- What is said of a fault. -/
def faultMessage : TreeFault → Text
  | .malformed .. => "Tree invariant violated"
  | .detached _ => "Node is not attached to a source file"

/-- In a session, faults of trees are reported by the logger for trees. -/
instance : Reports SessionM where
  report fault := announce treeLogger .error (faultMessage fault) [("error", (Fault.tree fault).toData)]

instance : Tries (StateM Session) SessionM where
  attempt work := work.run

/-- Takes over what was come to elsewhere. A fault of a tree is built again here. -/
def relay : Attempt α → SessionM α
  | .ok a => return a
  | .error (.fault (.tree fault)) => do throw (← fault.build)
  | .error failure => throw failure

/-- Reads from the store, listing slots as they are needed, at most so many times. -/
def observeWithin (read : Store → SessionM α) : Nat → SessionM α
  | 0 => throw (.misuse .endless)
  | tries + 1 => do
    match ← observing (read (← get).store) with
    | .ok a => return a
    | .error (.unlisted variant) =>
      let _ ← listSlots variant
      observeWithin read tries
    | .error failure => throw failure

/-- Reads from the store. The slots of each object are listed once at most. -/
def observe (read : Store → SessionM α) : SessionM α := do observeWithin read ((← get).store.size + 1)

/-- Builds in the store, listing slots as they are needed, at most so many times. The session has the store from before
until the work is at an end. -/
def buildWithin (work : BuildingT (StateM Session) α) : Nat → SessionM α
  | 0 => throw (.misuse .endless)
  | tries + 1 => do
    match ← ExceptT.lift (work (← get).store) with
    | (.ok a, store) =>
      modify fun session => { session with store }
      return a
    | (.error (.unlisted variant), _) =>
      let _ ← listSlots variant
      buildWithin work tries
    | (.error failure, store) =>
      modify fun session => { session with store }
      throw failure

/-- Builds in the store. What was done before a failure stays. -/
def build (work : BuildingT (StateM Session) α) : SessionM α := do buildWithin work ((← get).store.size + 1)

/-- Asks for the slot names of a variant, once an input is known to name only slots of it. -/
def askSlotNames (v : Variant) (input : Input) : SessionM Unit := do
  if (Store.unknownSlot? v.plan input).isNone then
    let _ ← slotNames v

/-- Makes a node of the members of a value; nothing is given if the value is `undefined`. -/
def createNode (v : Variant) (children : Value) : SessionM ObjectId := do
  if v.isSourceFile then build (Store.createM v (.ofMembers []))
  else
    let input ← match children with
      | .undefined => pure (Input.ofMembers [])
      | children => reading (Input.ofValue · children)
    askSlotNames v input
    build (Store.createM v input)

/-! ## Source files -/

/-- The nodes for which a source file is to be recorded, listing slots as they are needed. -/
def nodesWithin (root : ObjectId) : Nat → SessionM (List ObjectId × Option Failure)
  | 0 => return ([], some (.misuse .endless))
  | tries + 1 => do
    match (← get).store.nodesOf root with
    | (nodes, some (.unlisted variant)) =>
      match ← observing (listSlots variant) with
      | .ok _ => nodesWithin root tries
      | .error failure => return (nodes, some failure)
    | result => return result

/-- Records a source file for all nodes below it, or for those that are reached before one cannot be read. -/
def recordRoots (root : ObjectId) : SessionM Unit := do
  let (nodes, failure) ← nodesWithin root ((← get).store.size + 1)
  modify fun session => { session with store := session.store.recordRoot root nodes }
  match failure with
  | none => return ()
  | some failure => throw failure

/-- Makes a source file of the two members of a grammar that it takes, which any value can give. -/
def addFile (grammar : Value) (source : Source) (children : Value) : SessionM ObjectId := do
  let variant ← reading (·.member "sourceFile" grammar)
  let endOfFileKind ← reading (·.member "endOfFileKind" grammar)
  let input ← reading (Input.ofValue · children)
  match variant.object?.bind (← get).store.object? with
  | some (.variant v) =>
    askSlotNames v input
    build (Store.addFileM v endOfFileKind source input)
  | _ => build (Store.addOtherFileM variant endOfFileKind source input)

/-- Makes a source file from the members of a value. A source that is no text is kept as it is. -/
def createSourceFile (grammar source children : Value) : SessionM ObjectId := do
  let root ← match source with
    | .text t =>
      match Source.ofText? t with
      | some source => addFile grammar source children
      | none => throw (.misuse .tooLong)
    | source =>
      let root ← addFile grammar .empty children
      changing fun s => return ((), ← s.assignTo root "source" source)
      pure root
  recordRoots root
  return root

/-- Parses a source of the calculator language. -/
def parseCalc (source : Value) : SessionM ObjectId := build (Calc.parseValueM source)

/-! ## Positions -/

/-- The document of a source file. -/
def document (file : Value) : SessionM Document := changing (·.document file)

/-- Finds the lines of the document of a source file. -/
def findLines (file : Value) (d : Document) : SessionM Unit := do
  let _ ← reading (·.lineStarts d)
  modify fun session => { session with store := session.store.noteLines file }

def positionAt (file offset : Value) : SessionM Position := do
  let d ← document file
  let _ ← reading (·.clampedOffset d offset)
  findLines file d
  reading (·.positionIn d offset)

def offsetAt (file line character : Value) : SessionM Value := do
  let d ← document file
  findLines file d
  reading (·.offsetIn d line character)

/-- The node at a position of a source file. -/
def nodeAtPosition (file line character : Value) : SessionM (Option ObjectId) := do
  let offset ← offsetAt file line character
  observe (·.nodeAt file offset)

/-- The positions from some offset of a node up to its end. -/
def rangeFrom (first : Store → Value → SessionM Number) (v : Value) : SessionM Range := do
  let file := Value.object (← observe (·.root v))
  let _ ← document file
  let start ← positionAt file (.number (← observe (first · v)))
  let stop ← positionAt file (← observe (·.stop v))
  return ⟨start, stop⟩

/-- The positions of a node's significant text. -/
def range (v : Value) : SessionM Range := rangeFrom Store.start v

/-- The positions of a node with its leading trivia. -/
def fullRange (v : Value) : SessionM Range := rangeFrom Store.fullStart v

/-! ## Walks and rendering -/

/-- Pulls a walk once, listing slots as they are needed. A failure is what the pull comes to. A fault of a tree by which
the predicate fails has been built by what it asked the library for. -/
def pullWithin (predicate : Option (Store → Predicate)) (w : Walk) : Nat → SessionM Pull
  | 0 => return ⟨[], .failure (.misuse .endless), w⟩
  | tries + 1 => do
    let s := (← get).store
    let p ← ExceptT.lift (w.nextM s (predicate.map fun p id => relay (p s id)))
    match p.outcome with
    | .failure (.unlisted variant) =>
      match ← observing (listSlots variant) with
      | .ok _ => pullWithin predicate w tries
      | .error failure => return { p with outcome := .failure failure }
    | _ => return p

/-- Pulls a walk once. -/
def pull (predicate : Option (Store → Predicate)) (w : Walk) : SessionM Pull := do
  pullWithin predicate w ((← get).store.size + 1)

/-- The token format to render with: the one that options ask for, or the one of the settings. -/
def tokenFormat (options : Value) : SessionM TokenFormat := do
  let asked ← reading (·.askedFormat? options)
  return asked.getD (← get).settings.tokenFormat

/-- Renders a value as the options say. -/
def render (grammar v options : Value) : SessionM Data := do
  let format ← tokenFormat options
  observe (·.render grammar format v)

/-- Renders a value as indented JSON text. -/
def renderJson (grammar v options : Value) : SessionM Text := do
  let format ← tokenFormat options
  observe (·.renderJson grammar format v)

end Session

end LosslessSyntax
