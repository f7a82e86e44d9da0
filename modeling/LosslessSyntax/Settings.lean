import LosslessSyntax.Check.Decoder
import LosslessSyntax.Journal.Line
import LosslessSyntax.Tree.Render

/-!
# Settings

The settings that stay in force between operations. A change names some of them; it is read from an unchecked value and
refused as a whole if it names anything else or gives a value that is not listed.
-/

namespace LosslessSyntax

structure Settings where
  tokenFormat : TokenFormat := .full
  logLevel : Level := .info
  deriving DecidableEq, Repr

namespace Settings

/-- A change of settings; those that are `none` stay as they are. -/
structure Change where
  tokenFormat : Option TokenFormat := none
  logLevel : Option Level := none
  deriving DecidableEq, Repr

/-- The names of all settings. -/
def names : List Text := [Text.ofString "tokenFormat", Text.ofString "logLevel"]

/-- Refuses a value with members that are no settings, its own or those of what it extends. -/
def onlySettings (s : Store) (v : Value) : Checked Unit :=
  match (s.chainNames v).filter (!names.contains ·) with
  | [] => return ()
  | unknown => Checked.reject (.unrecognizedKeys unknown)

open Decoder in
/-- Reads a change. Unknown names are reported after all other issues. -/
def Change.decoder : Decoder Change := fun s v => do
  let read ← reader s v
  let tokenFormat := field "tokenFormat" (optional (option TokenFormat.words)) s read
  let logLevel := field "logLevel" (optional (option Level.words)) s read
  let ((tokenFormat, logLevel), _) ← Checked.both (Checked.both tokenFormat logLevel) (onlySettings s v)
  return { tokenFormat, logLevel }

def apply (s : Settings) (c : Change) : Settings :=
  { tokenFormat := c.tokenFormat.getD s.tokenFormat, logLevel := c.logLevel.getD s.logLevel }

def toData (s : Settings) : Data :=
  .record [("tokenFormat", .ofText s.tokenFormat.word), ("logLevel", .ofText s.logLevel.word)]

end Settings

end LosslessSyntax
