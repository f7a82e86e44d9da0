import LosslessSyntax.Check.Issue
import LosslessSyntax.Store.Data

/-!
# Faults

Every way in which an operation of the library can fail, as a cause with its own parameters. A fault is reported as a
named error: `Fault.name` is the name of its class and `Fault.payload` the data it carries. An operation that is given
values of the wrong sort can also fail by a `Misuse` of them.
-/

namespace LosslessSyntax

/-! ## Classes -/

/-- The classes of named errors that have a wording of their own. `unknown` is for errors from elsewhere. -/
inductive ErrorClass where
  | malformedTree
  | detachedNode
  | unknownKind
  | invalidDefinition
  | invalidRegistry
  | invalidSettings
  | unknown
  deriving DecidableEq, Repr

namespace ErrorClass

def all : List ErrorClass :=
  [.malformedTree, .detachedNode, .unknownKind, .invalidDefinition, .invalidRegistry, .invalidSettings, .unknown]

def name : ErrorClass → Text
  | .malformedTree => "TreeMalformedError"
  | .detachedNode => "TreeDetachedNodeError"
  | .unknownKind => "GrammarUnknownKindError"
  | .invalidDefinition => "GrammarInvalidDefinitionError"
  | .invalidRegistry => "KindsInvalidRegistryError"
  | .invalidSettings => "ConfigInvalidSettingsError"
  | .unknown => "UnknownError"

def ofName? (name : Text) : Option ErrorClass := all.find? (·.name = name)

end ErrorClass

/-! ## Trees -/

/-- How a tree breaks its rules. -/
inductive Malformation where
  | sourceFileVariant
  | unknownSlot (slot : Text)
  | listExpected (slot : Text)
  | foreignEntry (slot : Text)
  | singleExpected (slot : Text)
  | foreignValue (slot : Text)
  | repeatedChild (slot : Text)
  | ownedToken (slot : Text)
  | nestedSourceFile (slot : Text)
  | attachedChild (slot : Text)
  | noEndOfFileToken
  | listSlot (slot : Text)
  | singleSlot (slot : Text)
  | noChildren
  | notAmongChildren
  deriving DecidableEq

namespace Malformation

/-- A statement about a slot. -/
def ofSlot (before slot after : Text) : Text := before ++ "'" ++ slot ++ "'" ++ after

def message : Malformation → Text
  | .sourceFileVariant => "Source files are created with Node.createSourceFile"
  | .unknownSlot slot => ofSlot "Unknown slot " slot ""
  | .listExpected slot => ofSlot "Slot " slot " expects a list"
  | .foreignEntry slot => ofSlot "List slot " slot " holds a value that is neither Node nor Token"
  | .singleExpected slot => ofSlot "Slot " slot " expects a single child"
  | .foreignValue slot => ofSlot "Slot " slot " holds a value that is neither Node nor Token"
  | .repeatedChild slot => ofSlot "Child in slot " slot " appears more than once"
  | .ownedToken slot => ofSlot "Token in slot " slot " already belongs to another node"
  | .nestedSourceFile slot => ofSlot "A source file cannot be a child (slot " slot ")"
  | .attachedChild slot => ofSlot "Child in slot " slot " is already attached to another parent"
  | .noEndOfFileToken => "Source file has no end-of-file token"
  | .listSlot slot => ofSlot "Slot " slot " is a list"
  | .singleSlot slot => ofSlot "Slot " slot " holds a single child"
  | .noChildren => "Node has no children to take a position from"
  | .notAmongChildren => "Node is not among the children of its parent"

end Malformation

/-- A broken tree, with the kind name of the node at which it shows. -/
inductive TreeFault where
  | malformed (cause : Malformation) (kind : Value)
  | detached (kind : Value)
  deriving DecidableEq

namespace TreeFault

def errorClass : TreeFault → ErrorClass
  | .malformed .. => .malformedTree
  | .detached _ => .detachedNode

def payload : TreeFault → Data
  | .malformed cause kind => .record [("message", .ofText cause.message), ("kind", .leaf kind)]
  | .detached kind => .record [("kind", .leaf kind)]

end TreeFault

/-! ## Registries and grammars -/

/-- Why a registry is refused. -/
inductive RegistryFault where
  | duplicateName (name : Text)
  | sharedId (first second : Text) (id : Nat)
  | badShape (issues : List Issue)
  deriving DecidableEq

def RegistryFault.message : RegistryFault → Text
  | .duplicateName name => "Duplicate kind name '" ++ name ++ "'"
  | .sharedId first second id => "Kinds '" ++ first ++ "' and '" ++ second ++ "' share id " ++ Text.ofNat id
  | .badShape issues => Text.join "; " (issues.map Issue.text)

/-- The slot in which every source file keeps its end-of-file token. -/
def endOfFileSlot : Text := "endOfFileToken"

/-- The name that no slot may have. -/
def reservedSlotName : Text := "parent"

/-- Why a definition is refused. -/
inductive DefinitionFault where
  | badSlotName (slot node : Text)
  | reservedSlot (node : Text)
  | undeclaredSourceFile (name : Text)
  | noEndOfFileSlot (node : Text)
  | undeclaredEndOfFile (token : Text)
  | badShape (issues : List Issue)
  deriving DecidableEq

namespace DefinitionFault

def message : DefinitionFault → Text
  | .badSlotName slot node => "Slot '" ++ slot ++ "' of " ++ node ++ " is not an identifier"
  | .reservedSlot node => "Slot name '" ++ reservedSlotName ++ "' of " ++ node ++ " is reserved for the back-reference"
  | .undeclaredSourceFile name => "Source file variant '" ++ name ++ "' is not declared"
  | .noEndOfFileSlot node => node ++ " must declare '" ++ endOfFileSlot ++ "' as a single slot"
  | .undeclaredEndOfFile token => "End-of-file token '" ++ token ++ "' is not declared"
  | .badShape _ => "Grammar definition does not match the expected shape"

/-- The issues of a definition of the wrong shape. -/
def issues? : DefinitionFault → Option (List Text)
  | .badShape issues => some (issues.map Issue.text)
  | _ => none

end DefinitionFault

/-- The two spaces of kinds. -/
inductive KindSpace where
  | node
  | token
  deriving DecidableEq, Repr

def KindSpace.word : KindSpace → Text
  | .node => "node"
  | .token => "token"

/-! ## Faults -/

inductive Fault where
  | tree (fault : TreeFault)
  | unknownKind (kind : Value) (space : KindSpace)
  | invalidDefinition (fault : DefinitionFault)
  | invalidRegistry (fault : RegistryFault)
  | invalidSettings (issues : List Issue)
  deriving DecidableEq

namespace Fault

def errorClass : Fault → ErrorClass
  | .tree f => f.errorClass
  | .unknownKind .. => .unknownKind
  | .invalidDefinition _ => .invalidDefinition
  | .invalidRegistry _ => .invalidRegistry
  | .invalidSettings _ => .invalidSettings

def name (f : Fault) : Text := f.errorClass.name

def payload : Fault → Data
  | .tree f => f.payload
  | .unknownKind kind space => .record [("kind", .leaf kind), ("registry", .ofText space.word)]
  | .invalidDefinition f =>
    .record <| ("message", .ofText f.message) :: (f.issues?.toList.map fun issues => ("issues", .ofTexts issues))
  | .invalidRegistry f => .record [("message", .ofText f.message)]
  | .invalidSettings issues => .record [("issues", .ofTexts (issues.map Issue.rootedText))]

/-- A fault as a named error. -/
def toData (f : Fault) : Data := .error f.name f.payload .undefined

end Fault

/-- An operation fails by a fault of its own, or because a value was misused. It cannot go on at an object that serves
as a variant, but is no grammar's, before the slots of that object have been listed. -/
inductive Failure where
  | fault (fault : Fault)
  | misuse (misuse : Misuse)
  | unlisted (variant : ObjectId)
  deriving DecidableEq

namespace Failure

/-- A failure by a broken tree. -/
def ofTree (f : TreeFault) : Failure := .fault (.tree f)

end Failure

/-- What may fail by a fault or by a misuse. -/
abbrev Attempt := Except Failure

/-! ## Reports

A fault of a tree is reported where it is built, before it is thrown. So trees are read in any monad in which that can
fail and faults can be reported. -/

/-- What can fail, and where faults of trees are reported. -/
class Reports (m : Type → Type) extends MonadExceptOf Failure m where
  report : TreeFault → m Unit

/-- Attempts are made where nobody listens. -/
@[default_instance] instance : Reports Attempt where
  report _ := return ()

/-- What is done in `n` can try what may fail in `m`, and go on by what that came to. -/
class Tries (n : Type → Type) (m : outParam (Type → Type)) where
  attempt {α : Type} : m α → n (Attempt α)

instance : Tries Id Attempt where
  attempt work := work

section

variable {m : Type → Type} [Monad m] [Reports m] {α : Type}

/-- Builds the failure by a broken tree, and reports it. It is for the caller to throw it. -/
def TreeFault.build (fault : TreeFault) : m Failure := do
  Reports.report fault
  return .ofTree fault

/-- Takes over what may only be misused. -/
def Attempt.ofMisuse : Except Misuse α → m α
  | .ok a => return a
  | .error misuse => throw (.misuse misuse)

end

end LosslessSyntax
