/-
The state of the simulated system, and the actions on it. An action that gives up keeps what it has
done so far. While the system runs, `flush` brings the six records of the store up to date.
-/
import SimUnix.Account.Table
import SimUnix.Clipboard
import SimUnix.Log
import SimUnix.Store
import SimUnix.Tree.Edit
import SimUnix.Tree.Record

namespace SimUnix

/-- A phase of the system's life. -/
inductive Phase where
  | shutdown
  | booting
  | running
  deriving Repr, DecidableEq

/-- The name of a phase. -/
def Phase.name : Phase → String
  | shutdown => "shutdown"
  | booting => "booting"
  | running => "running"

/-- The applications that cannot be removed. -/
def coreApps : List String := ["finder", "settings", "terminal", "app-store", "notepad"]

/-- The state of the system. -/
structure Machine where
  phase : Phase := .shutdown
  store : Store
  /-- The name of the host where the tree gives none. -/
  defaultHostname : String
  log : Log
  bootLog : List String := []
  tree : Tree
  accounts : Accounts := Accounts.initial
  clipboard : Clipboard := {}
  /-- An integrity check has found a change. -/
  alarmed : Bool := false
  /-- The name of the user who is logged in, or nothing; a restored value is kept as it is. -/
  currentUser : Json := .null
  /-- The ids of the applications; a restored list is kept as it is. -/
  apps : List Json := coreApps.map .str
  safeMode : Bool := false
  failures : List Json := []
  diagnostic : List Json := []
  developerMode : Bool := false
  /-- The reading of the clock. -/
  now : Time.Stamp
  deriving Repr, DecidableEq

/-- An action on the system. -/
abbrev Act := ExceptT Fault (StateM Machine)

namespace Act

/-- Brings a result into an action. -/
def ofExcept {α : Type} : Except Fault α → Act α
  | .ok a => pure a
  | .error e => throw e

/-- Asks the state a question that may fail. -/
def ask {α : Type} (question : Machine → Except Fault α) : Act α := do ofExcept (question (← get))

/-- Performs a change of the tree. -/
def edit {α : Type} (change : Edit α) : Act α := do
  let s ← get
  let (result, tree) := change.run s.tree
  set { s with tree }
  ofExcept result

/-- Performs a change of the tree that cannot fail. -/
def editTree (change : Tree → Tree) : Act Unit := modify fun s => { s with tree := change s.tree }

end Act

namespace Machine

/-- A system that has not been started. -/
def create (store : Store) (hostname : String) (log : Log) (ids : IdSupply) (now : Time.Stamp) :
    Machine :=
  { store, defaultHostname := hostname, log, tree := Tree.empty ids now, now }

/-- Adds a log entry. -/
def logged (s : Machine) (level : Level) (source message : String) (user : Json := systemUser) :
    Machine :=
  { s with log := s.log.add { level, message, source, user } }

/-- The record of the session. -/
def sessionJson (s : Machine) : Json :=
  .obj [("user", s.currentUser), ("safe_mode", .bool s.safeMode),
    ("integrity_failures", .arr s.failures), ("integrity_diagnostic", .arr s.diagnostic),
    ("developer_mode", .bool s.developerMode)]

/-- The six records that keep the state. Tables that cannot be put in order have no record. -/
def records (s : Machine) : List (String × Except Fault Json) :=
  [(Store.treeKey, .ok s.tree.toJson), (Store.usersKey, s.accounts.usersJson),
    (Store.groupsKey, s.accounts.groupsJson), (Store.clipboardKey, .ok s.clipboard.toJson),
    (Store.appsKey, .ok (.arr s.apps)), (Store.sessionKey, .ok s.sessionJson)]

end Machine

namespace Act

/-- Adds a log entry. -/
def log (level : Level) (source message : String) (user : Json := systemUser) : Act Unit :=
  modify (·.logged level source message user)

/-- Writes one record. -/
def writeRecord (key : String) (value : Except Fault Json) : Act Unit := do
  let value ← ofExcept value
  modify fun s => { s with store := s.store.set key value }

/-- Writes all records, if the system runs. -/
def flush : Act Unit := do
  let s ← get
  if s.phase = .running then s.records.forM fun r => writeRecord r.1 r.2

end Act

end SimUnix
