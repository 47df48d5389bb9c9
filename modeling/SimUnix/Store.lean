/-
The record store: values under keys, kept in memory or in a directory with one file a record. Keys
are listed in order. A file holds the written form of its value, and a file that holds anything
else makes its record unreadable.
-/
import SimUnix.Json.Parser
import SimUnix.Json.Printer
import SimUnix.Keyed
import SimUnix.Text.Split

namespace SimUnix

/-- A directory of text files. -/
structure Directory where
  path : String
  files : Keyed String String := []
  deriving Repr, DecidableEq

/-- A store of records. -/
inductive Store where
  | memory (records : Keyed String Json)
  | files (directory : Directory)
  deriving Repr, DecidableEq

namespace Store

/-! ## Keys -/

/-- What the keys of all the system's own records start with. -/
def keyLead : String := "aurora-"

/-- The key of the file tree. -/
def treeKey : String := keyLead ++ "filesystem"

/-- The key of the users. -/
def usersKey : String := keyLead ++ "users"

/-- The key of the groups. -/
def groupsKey : String := keyLead ++ "groups"

/-- The key of the clipboard. -/
def clipboardKey : String := keyLead ++ "clipboard"

/-- The key of the installed applications. -/
def appsKey : String := keyLead ++ "installed-apps"

/-- The key of the session. -/
def sessionKey : String := keyLead ++ "session"

/-- The key of a user's scrollback. -/
def historyKey (user : String) : String := keyLead ++ "term-history-" ++ user

/-- The key of a user's command lines. -/
def inputKey (user : String) : String := keyLead ++ "term-input-" ++ user

/-! ## File names -/

/-- A character that a file name takes over from a key. -/
def isSafe (c : Char) : Bool := c.isAlphanum || c == '.' || c == '_' || c == '-'

/-- A key with every other character replaced by an underscore. -/
def safeKey (key : String) : String := key.map fun c => if isSafe c then c else '_'

/-- The ending of a record's file. -/
def recordEnding : String := ".json"

/-- The name of a record's file. -/
def fileName (key : String) : String := safeKey key ++ recordEnding

/-- The name of the file that a record is written to before it takes its place. -/
def draftName (key : String) : String :=
  if key = "" then recordEnding ++ recordEnding ++ ".tmp" else fileName key ++ ".tmp"

/-- The key that a file's name shows, if the file is a record. A name that is an ending alone shows
itself. -/
def shownKey? (name : String) : Option String :=
  if name = recordEnding then some name
  else if Text.endsWith name recordEnding then
    some (String.ofList (name.toList.take (name.length - recordEnding.length)))
  else none

/-- How many characters the name of a file may have. -/
def maxNameLength : Nat := 255

/-- Whether a store takes a name for a file. -/
def takesName (store : Store) (name : String) : Bool :=
  match store with
  | memory _ => true
  | files _ => name.length ≤ maxNameLength

/-! ## Operations -/

/-- The value of a record, if there is one. -/
def get (store : Store) (key : String) : Except Fault (Option Json) := do
  if !store.takesName (fileName key) then throw .unnameable
  match store with
  | memory records => .ok (records.get? key)
  | files d =>
    match d.files.get? (fileName key) with
    | none => .ok none
    | some text =>
      match ← Json.parse text with
      | some value => .ok (some value)
      | none => .error (.corrupt key (d.path ++ "/" ++ fileName key))

/-- Writes a record under a key that is short enough. -/
def set (store : Store) (key : String) (value : Json) : Store :=
  match store with
  | memory records => memory (records.put key value)
  | files d =>
    files { d with files := (d.files.drop (draftName key)).put (fileName key) value.toText }

/-- Writes a record under any key. -/
def write (store : Store) (key : String) (value : Json) : Except Fault Store :=
  if store.takesName (draftName key) then .ok (store.set key value) else .error .unnameable

/-- Removes a record under a key that is short enough, if there is one. -/
def delete (store : Store) (key : String) : Store :=
  match store with
  | memory records => memory (records.drop key)
  | files d => files { d with files := d.files.drop (fileName key) }

/-- Removes a record under any key, if there is one. -/
def remove (store : Store) (key : String) : Except Fault Store :=
  if store.takesName (fileName key) then .ok (store.delete key) else .error .unnameable

/-- The keys of all records in order. -/
def keys (store : Store) : List String :=
  match store with
  | memory records => Text.sorted records.keys
  | files d => Text.sorted (d.files.keys.filterMap shownKey?)

/-- A record that counts as absent when its value is empty. -/
def getFilled (store : Store) (key : String) : Except Fault (Option Json) :=
  (store.get key).map fun value? => value?.filter Json.truthy

end Store

end SimUnix
