/-
Logging in and out, and the administration of users and groups. Every change of the tables is made
for an administrator only, and ends with the flat files and the records brought up to date.
-/
import SimUnix.Machine.OwnFiles
import SimUnix.Text.Alphanumeric

namespace SimUnix.Machine

/-! ## Session -/

/-- Makes a user the user of the session, or nobody. -/
def setSessionUser (user? : Option String) : Act Unit := do
  modify fun s => { s with currentUser := Json.text? user? }
  Act.flush

/-- Logs a user in, if the password is right. -/
def login (user password : String) : Act Bool := do
  if (← get).accounts.verify user password then
    setSessionUser (some user)
    Act.log .info "auth" s!"{user} logged in" user
    pure true
  else
    Act.log .warning "auth" s!"failed login for {user}" user
    pure false

/-- Logs the user of the session out. -/
def logout : Act Unit := do
  let previous := (← get).currentUser
  setSessionUser none
  match previous with
  | .null => pure ()
  | user => Act.log .info "auth" s!"{user.plain} logged out" user

/-! ## Authority -/

/-- The name of the one who asks for a change of the tables, or nothing. -/
def petitioner (s : Machine) (asUser? : Option Json) : Json :=
  (asUser?.filter Json.truthy).getD s.currentUser

/-- Whether a name is that of an administrator; nobody is none. -/
def mayAdminister (s : Machine) (name : Json) : Except Fault Bool := do
  if name = .null then .ok false
  else .ok ((← s.accounts.find name).any User.isAdmin)

/-- The actor, if the tables may be changed for it; a refusal is logged. -/
def authorize (action : String) (asUser? : Option Json) : Act (Option Json) := do
  let s ← get
  let actor := s.petitioner asUser?
  let shown := if actor.truthy then actor else "?"
  if s.safeMode then
    Act.log .warning "auth" s!"{action} refused: safe mode" shown
    pure none
  else if ← Act.ask (·.mayAdminister actor) then pure (some actor)
  else
    Act.log .warning "auth" s!"{action} refused: not an administrator" shown
    pure none

/-- Brings everything that depends on the tables up to date, and logs the change. -/
def committed (message : String) (actor : Json) : Act Unit := do
  modify fun s => { s with accounts := s.accounts.reindexed }
  syncFiles
  Act.log .info "auth" message actor
  Act.flush

/-- Changes the tables for an administrator. `change` gives the new tables, nothing if the request
makes no sense; `finish` does what else belongs to the change, whose result is the message to
log. -/
def administer (action : String) (asUser? : Option Json)
    (change : Accounts → Except Fault (Option Accounts)) (finish : Act String) : Act Bool := do
  match ← authorize action asUser? with
  | none => pure false
  | some actor =>
    match ← Act.ask fun s => change s.accounts with
    | none => pure false
    | some accounts =>
      modify fun s => { s with accounts }
      committed (← finish) actor
      pure true

/-! ## Users -/

/-- A name that a user may be given: letters and numbers, and at most dashes and underscores with
them. -/
def validUserName (name : String) : Bool :=
  let cs := name.toList.filter fun c => c != '-' && c != '_'
  !cs.isEmpty && cs.all Text.isAlphanumeric

theorem alphanumeric_of_mem {name : String} (h : validUserName name = true) {c : Char} (hc : c ∈ name.toList) (hdash : c ≠ '-')
    (hunder : c ≠ '_') : Text.isAlphanumeric c = true := by
  unfold validUserName at h
  simp only [Bool.and_eq_true, List.all_eq_true, List.mem_filter] at h
  exact h.2 c ⟨hc, by simp [hdash, hunder]⟩

/-- What a new user is asked for. -/
structure NewUser where
  name : String
  fullName : String := ""
  password : String := ""
  passwordHint : Json := ""
  withHome : Bool := true

/-- The user that a request makes under a number. -/
def NewUser.build (new : NewUser) (uid : Int) : User :=
  { name := new.name, uid := .int uid, gid := .int uid
    fullName := .str (if new.fullName = "" then new.name else new.fullName)
    passwordDigest := passwordDigest new.password, passwordHint := new.passwordHint }

/-- Creates a user with a group of its own and, unless it is declined, a home directory. -/
def addUser (new : NewUser) (asUser? : Option Json) : Act Bool :=
  administer s!"add user {new.name}" asUser?
    (fun a =>
      if !validUserName new.name || a.users.has new.name || a.groups.has new.name then .ok none
      else do .ok (some (← a.insertUser (new.build (← a.nextUid)))))
    (do
      match (← get).accounts.user? new.name with
      | none => pure ""
      | some u =>
        if new.withHome then discard <| createHome u
        pure s!"user {u.name.plain} created (uid={u.uid.plain})")

/-- The details of a user that may be changed. -/
structure UserChange where
  fullName? : Option String := none
  password? : Option String := none
  passwordHint? : Option String := none
  admin? : Option Bool := none

/-- The user with changed details. -/
def UserChange.apply (c : UserChange) (u : User) : User :=
  { u with
    fullName := (c.fullName?.map Json.str).getD u.fullName
    passwordDigest := (c.password?.map (.str <| passwordDigest ·)).getD u.passwordDigest
    passwordHint := (c.passwordHint?.map Json.str).getD u.passwordHint }

/-- Changes a user's details. Only root's place among the administrators is fixed. -/
def updateUser (name : String) (c : UserChange) (asUser? : Option Json) : Act Bool :=
  administer s!"update user {name}" asUser?
    (fun a =>
      if !a.users.has name then .ok none
      else
        let a := { a with users := a.users.update name c.apply }
        match c.admin? with
        | none => .ok (some a)
        | some admin =>
          if name = rootName then .ok (some a)
          else
            (a.updateGroup adminGroup fun g =>
              if admin then g.insert name else g.erase name).map some)
    (pure s!"user {name} updated")

/-- Removes a user, but not its home directory. Root stays. -/
def deleteUser (name : String) (asUser? : Option Json) : Act Bool :=
  administer s!"delete user {name}" asUser?
    (fun a => .ok <| if name = rootName then none else (a.user? name).map a.eraseUser)
    (pure s!"user {name} deleted")

/-! ## Groups -/

/-- Creates a group, with some existing users as its members. -/
def addGroup (name : String) (members : List String) (asUser? : Option Json) : Act Bool :=
  administer s!"add group {name}" asUser?
    (fun a => do
      if name = "" || a.groups.has name || !members.all (a.users.has ·) then .ok none
      else
        let gid ← a.nextUid
        .ok (some { a with
          groups := a.groups.put name {
            name, gid := .int gid, members := members.eraseDups.map .str } }))
    (pure s!"group {name} created")

/-- Makes a user a member of a group. -/
def addToGroup (user group : String) (asUser? : Option Json) : Act Bool :=
  administer s!"add {user} to {group}" asUser?
    (fun a => .ok <|
      match a.group? group with
      | none => none
      | some g =>
        if !a.users.has user || g.members.contains user then none
        else some { a with groups := a.groups.update group (·.insert user) })
    (pure s!"{user} added to {group}")

/-- Takes a user out of a group, but never out of its own. -/
def removeFromGroup (user group : String) (asUser? : Option Json) : Act Bool :=
  administer s!"remove {user} from {group}" asUser?
    (fun a => .ok <|
      match a.group? group, a.user? user with
      | some g, some u =>
        if !g.members.contains user || g.gid.sameKey u.gid then none
        else some { a with groups := a.groups.update group (·.erase user) }
      | _, _ => none)
    (pure s!"{user} removed from {group}")

/-- Deletes a group that is neither the system's nor any user's own. -/
def deleteGroup (name : String) (asUser? : Option Json) : Act Bool :=
  administer s!"delete group {name}" asUser?
    (fun a => .ok <|
      match a.group? name with
      | none => none
      | some g =>
        if Accounts.isSystemGroup name || a.users.values.any (·.gid.sameKey g.gid) then none
        else some { a with groups := a.groups.drop name })
    (pure s!"group {name} deleted")

/-! ## Tables as a whole -/

/-- Adds a user without asking who wants it. -/
def seedUser (name fullName password : String) (admin : Bool) : Act User := do
  let a := (← get).accounts
  let uid ← Act.ofExcept a.nextUid
  let u : User := {
    name, uid := .int uid, gid := .int uid, fullName
    passwordDigest := passwordDigest password }
  let a ← Act.ofExcept (a.insertUser u)
  let a ← if admin then Act.ofExcept (a.updateGroup adminGroup (·.insert name)) else pure a
  let a := a.reindexed
  modify fun s => { s with accounts := a }
  pure (a.principal name)

/-- Gives root a password without asking who wants it. -/
def setRootPassword (password : String) : Act Unit := do
  let s ← get
  if s.accounts.users.has rootName then
    set { s with accounts := { s.accounts with
      users := s.accounts.users.update rootName fun u =>
        { u with passwordDigest := passwordDigest password } } }
  else throw (.missing (Text.quoted rootName))

/-- Goes back to root and the system groups. -/
def resetAccounts : Act Unit := modify fun s => { s with accounts := Accounts.initial }

/-- Replaces the tables by stored ones. -/
def loadAccounts (users groups : Json) : Act Unit := do
  let users ← Act.ofExcept (Accounts.readUsers users)
  modify fun s => { s with accounts := { s.accounts with users } }
  let groups ← Act.ofExcept (Accounts.readGroups groups)
  modify fun s => { s with accounts := { s.accounts with groups }.completed }

end SimUnix.Machine
