/-
Starting, stopping and resetting the system, and its applications. Starting restores the state from
the store, or lays out a new system where there is nothing to restore or it cannot be read.
-/
import SimUnix.Machine.Administration
import SimUnix.Machine.Integrity
import SimUnix.Machine.Marker
import SimUnix.Machine.Relocation

namespace SimUnix.Machine

/-! ## Factory layout -/

/-- The directories of a new system and their permissions. -/
def systemDirectories : List (String × String) :=
  [("/bin", "drwxr-xr-x"), ("/usr/bin", "drwxr-xr-x"), ("/etc", "drwxr-xr-x"),
    ("/home", "drwxr-xr-x"), ("/root", "drwx------"), ("/tmp", "drwxrwxrwx"),
    ("/var/log", "drwxr-xr-x")]

/-- The directory of programs. -/
def programsPath : String := "/bin"

/-- The directory of applications. -/
def appsPath : String := "/usr/bin"

/-- The password of root on a new system. -/
def factoryRootPassword : String := "admin"

/-- The first user of a new system. -/
def factoryUser : String := "user"

/-- The password of the first user of a new system. -/
def factoryUserPassword : String := "1234"

/-- Writes the file of an application. -/
def putAppFile (id : String) : Act Unit :=
  discard <| putSystemFile appsPath id (Executable.appContent id) Executable.permissions

/-- Forgets everything but the store, the log and the boot log, leaving an empty tree. -/
def blank (s : Machine) : Machine :=
  { s with
    tree := Tree.empty s.tree.ids s.now, accounts := Accounts.initial, clipboard := {}
    apps := coreApps.map .str, currentUser := .null, safeMode := false, failures := []
    diagnostic := [], developerMode := false, alarmed := false }

/-- Adds a line to the boot log. -/
def noteBoot (line : String) : Act Unit := modify fun s => { s with bootLog := s.bootLog ++ [line] }

/-- Lays out a new system. -/
def seed : Act Unit := do
  modify blank
  for (path, permissions) in systemDirectories do
    discard <| ensureDirectory path { permissions }
  for c in Command.programs do
    discard <|
      putSystemFile programsPath c.name (Executable.programContent c) Executable.permissions
  for id in coreApps do putAppFile id
  discard <| putSystemFile "/etc" "hostname" (← get).defaultHostname filePermissions
  noteBoot "[OK] Filesystem (factory layout)"
  setRootPassword factoryRootPassword
  let u ← seedUser factoryUser "User" factoryUserPassword true
  discard <| createHome u
  syncFiles
  noteBoot "[OK] Identity (root, user)"
  Act.log .info "system" "factory layout seeded"

/-! ## Restoring -/

/-- A stored record, or a default where it is absent or empty. -/
def recordOr (key : String) (default : Json) (s : Machine) : Except Fault Json :=
  (s.store.getFilled key).map (·.getD default)

/-- The value of a field as a truth value; an absent one is false. -/
def flagField (key : String) (record : Json) : Except Fault Bool :=
  (record.field? key).map fun value? => value?.any Json.truthy

/-- The items of a field; an absent one has none. -/
def itemsField (key : String) (record : Json) : Except Fault (List Json) := do
  (← record.fieldOr key (.arr [])).items

/-- Restores the session from its record, field by field. -/
def restoreSession (record : Json) : Act Unit := do
  let currentUser ← Act.ofExcept (record.fieldOr "user" .null)
  modify fun s => { s with currentUser }
  let safeMode ← Act.ofExcept (flagField "safe_mode" record)
  modify fun s => { s with safeMode }
  let failures ← Act.ofExcept (itemsField "integrity_failures" record)
  modify fun s => { s with failures }
  let diagnostic ← Act.ofExcept (itemsField "integrity_diagnostic" record)
  modify fun s => { s with diagnostic }
  let developerMode ← Act.ofExcept (flagField "developer_mode" record)
  modify fun s => { s with developerMode }

/-- Restores everything from the store; false if there is no tree in it. -/
def restore : Act Bool := do
  match (← Act.ask fun s => s.store.get Store.treeKey).getD .null with
  | .null => pure false
  | record =>
    let tree ← Act.ask fun s => Tree.ofJson s.tree.ids s.now record
    modify fun s => { s with tree }
    noteBoot s!"[OK] Filesystem ({tree.size} nodes)"
    let users ← Act.ask (recordOr Store.usersKey (.arr []))
    let groups ← Act.ask (recordOr Store.groupsKey (.arr []))
    loadAccounts users groups
    let users ← Act.ask (·.accounts.sortedUsers)
    noteBoot s!"[OK] Identity ({users.length} users)"
    let clipboard ← Act.ofExcept (Clipboard.ofJson (← Act.ask (recordOr Store.clipboardKey .null)))
    modify fun s => { s with clipboard }
    let apps ← Act.ofExcept (← Act.ask (recordOr Store.appsKey (Json.texts coreApps))).items
    modify fun s => { s with apps }
    restoreSession (← Act.ask (recordOr Store.sessionKey (.obj [])))
    noteBoot "[OK] Session"
    pure true

/-! ## Life -/

/-- Whether a fault means that the stored state is unreadable, so that starting goes on without
it. -/
def isUnreadable : Fault → Bool
  | .missing _ | .badValue _ | .corrupt _ _ => true
  | _ => false

/-- Restores from the store; stored state that is unreadable counts as absent. -/
def restoreOrNote : Act Bool :=
  tryCatch restore fun e =>
    if isUnreadable e then do
      Act.log .error "store" s!"stored state unreadable, reseeding: {e.message}"
      noteBoot "[!!] Stored state unreadable"
      pure false
    else throw e

/-- A system that has not been started, on the records of this one. -/
def anew (s : Machine) : Machine := create s.store s.defaultHostname s.log.clear s.tree.ids s.now

/-- Starts the system. -/
def boot : Act Unit := do
  let s ← get
  if s.phase != .shutdown then throw (.misuse (.boot s.phase.name))
  set { s with phase := .booting, bootLog := [] }
  if !(← restoreOrNote) then seed
  modify fun s => { s with phase := .running }
  Act.flush
  Act.log .info "system" "System boot complete"

/-- Stops the system. -/
def shutdown : Act Unit := do
  let s ← get
  if s.phase != .running then throw (.misuse (.shutdown s.phase.name))
  Act.flush
  Act.log .info "system" "System shutdown"
  modify fun s => { s with phase := .shutdown }

/-- Erases the log and all records of the system, and lays out a new one. -/
def reset : Act Unit := do
  let s ← get
  let own := s.store.keys.filter (Text.startsWith · Store.keyLead)
  set { s with log := s.log.clear, store := own.foldl Store.delete s.store, phase := .booting }
  seed
  modify fun s' => { s' with phase := s.phase }
  Act.flush
  Act.log .warning "system" "factory reset"

/-! ## Applications -/

/-- Whether the actor may change the applications; a refusal is logged. -/
def mayManageApps (action : String) (asUser? : Option Json) : Act Bool := do
  let s ← get
  let actor := s.actor asUser?
  if s.safeMode || !(← Act.ofExcept (s.accounts.find actor)).any User.isAdmin then
    Act.log .warning "system" s!"{action} refused" actor
    pure false
  else pure true

/-- Installs an application with its file. -/
def installApp (id : String) (asUser? : Option Json) : Act Bool := do
  if id = "" || id.toList.contains '/' || (← get).apps.contains (.str id) then return false
  if !(← mayManageApps s!"install {id}" asUser?) then return false
  modify fun s => { s with apps := s.apps ++ [.str id] }
  putAppFile id
  Act.log .info "system" s!"installed {id}" ((← get).actor asUser?)
  Act.flush
  pure true

/-- Removes an application with its file. -/
def uninstallApp (id : String) (asUser? : Option Json) : Act Bool := do
  if coreApps.contains id || !(← get).apps.contains (.str id) then return false
  if !(← mayManageApps s!"uninstall {id}" asUser?) then return false
  modify fun s => { s with apps := s.apps.erase (.str id) }
  let s ← get
  match ← Act.ofExcept (s.tree.lookup (appsPath ++ "/" ++ id)) with
  | some n => discard <| Act.edit (Tree.remove n s.now)
  | none => pure ()
  Act.log .info "system" s!"uninstalled {id}" ((← get).actor asUser?)
  Act.flush
  pure true

end SimUnix.Machine
