/-
The commands about users and groups: who is who, acting as someone else, and administration. The
tables decide themselves what is allowed; the commands choose the wording.
-/
import SimUnix.Command.Context

namespace SimUnix.Command

/-! ## Queries -/

/-- Prints the acting user. -/
def runWhoami (ctx : Context) : Job Outcome := pure (.ok [ctx.user])

/-- A number and the name that belongs to it. -/
def numbered (number name : Json) : String := s!"{number.plain}({name.plain})"

/-- The line that shows a user's numbers. -/
def numbersLine (a : Accounts) (u : User) : Except Fault String := do
  let groups := (← a.sortedGroups).filter fun g => u.groups.contains g.name
  let listed := Text.joinWith "," (groups.map fun g => numbered g.gid g.name)
  .ok s!"uid={numbered u.uid u.name} gid={numbered u.gid (a.groupName u.gid)} groups={listed}"

/-- Prints the numbers of a user and its groups. -/
def runId (ctx : Context) : Job Outcome := do
  let a := (← Job.machine).accounts
  let name := ctx.args.headD ctx.user
  match a.user? name with
  | some u => pure (.ok [← Job.ofExcept (numbersLine a u)])
  | none =>
    if ctx.args.isEmpty then pure (.ok [s!"uid=-1({name}) gid=-1 groups="])
    else pure (.fail s!"id: '{name}': no such user")

/-- Prints the groups of a user. -/
def runGroups (ctx : Context) : Job Outcome := do
  let name := ctx.args.headD ctx.user
  match (← Job.machine).accounts.user? name with
  | some u =>
    let names ← Job.ofExcept (u.sortedGroups.bind (·.mapM Json.asText))
    pure (.ok [Text.joinWith " " names])
  | none => pure (.fail s!"groups: '{name}': no such user")

/-! ## Acting as someone else -/

/-- Acts as another user from here on. Everyone but root has to give the other user's password. -/
def runSu (ctx : Context) : Job Outcome := do
  let target := ctx.args.headD rootName
  let s ← Job.machine
  if (s.accounts.user? target).isNone then return .fail s!"su: user {target} does not exist"
  if target = rootName && s.safeMode then
    return .fail "su: Authentication failure (root access disabled in safe mode)"
  let succeed : Job Unit := do
    Job.act (Act.log .info "auth" s!"su to {target}" ctx.user)
    Job.move (Station.pushSession target)
  if ctx.user = rootName then
    succeed
    return {}
  let e ← Job.askPassword "Password:"
  if (← Job.machine).accounts.verify target e.answer then
    succeed
    pure (Outcome.after {} [e.shown])
  else
    Job.act (Act.log .warning "auth" s!"su to {target} failed" ctx.user)
    pure (Outcome.after (.fail "su: Authentication failure") [e.shown])

/-- Decides whether the acting user may act as root: what was shown while asking for a password, and
the refusal if there is one. -/
def authorizeSudo (ctx : Context) : Job (List Line × Option Outcome) := do
  if ctx.user = rootName then return ([], none)
  let s ← Job.machine
  if !s.accounts.isAdmin ctx.user then
    Job.act (Act.log .warning "auth" "sudo refused: not in sudoers" ctx.user)
    return ([], some
      (.fail s!"{ctx.user} is not in the sudoers file. This incident will be reported."))
  if s.safeMode then return ([], some (.fail "sudo: root access disabled (safe mode)"))
  if (← Job.terminal).sudoAuthorized then return ([], none)
  let e ← Job.askPassword s!"[sudo] password for {ctx.user}:"
  if (← Job.machine).accounts.verify ctx.user e.answer then
    Job.setTerminal fun t => { t with sudoAuthorized := true }
    pure ([e.shown], none)
  else pure ([e.shown], some (.fail "sudo: 1 incorrect password attempt"))

/-- Runs a command as root. The session as root ends with the command; sessions that the command
opens on top of it stay. -/
def runSudo (ctx : Context) (run : Job Outcome) : Job Outcome := do
  if ctx.args.isEmpty then return .fail asRoot.usageLine
  let (shown, refusal?) ← authorizeSudo ctx
  match refusal? with
  | some refusal => pure (refusal.after shown)
  | none =>
    let line := Text.joinWith " " ctx.args
    Job.act (Act.log .info "auth" s!"sudo {line}" ctx.user)
    let depth := (← Job.terminal).sessions.depth
    Job.move (Station.pushSession rootName)
    let o ← Job.always run (discard (Station.closeSession (some depth)))
    pure (o.after shown)

/-! ## Administration -/

/-- The refusal for a caller who may not change the tables. -/
def refusal? (ctx : Context) (name : String) (s : Machine) : Option Outcome :=
  if s.safeMode then some (.fail s!"{name}: Permission denied (safe mode)")
  else if !s.accounts.isAdmin ctx.user then some (.fail s!"{name}: Permission denied.")
  else none

/-- The options and operands of `useradd`. An option takes the argument after it, which may be
missing. -/
structure NewUserArgs where
  fullName : String := ""
  password : String := ""
  operands : List String := []

/-- Reads the options and operands of `useradd`. -/
def newUserArgs (r : NewUserArgs) : List String → NewUserArgs
  | "-c" :: value :: rest => newUserArgs { r with fullName := value } rest
  | ["-c"] => { r with fullName := "" }
  | "-p" :: value :: rest => newUserArgs { r with password := value } rest
  | ["-p"] => { r with password := "" }
  | arg :: rest => newUserArgs { r with operands := r.operands ++ [arg] } rest
  | [] => r

/-- Creates a user. -/
def runUseradd (ctx : Context) : Job Outcome := do
  let r := newUserArgs {} ctx.args
  match r.operands with
  | [name] =>
    let s ← Job.machine
    match refusal? ctx "useradd" s with
    | some refusal => pure refusal
    | none =>
      if (s.accounts.user? name).isSome then return .fail s!"useradd: user '{name}' already exists"
      let new : Machine.NewUser := { name, fullName := r.fullName, password := r.password }
      if ← Job.act (Machine.addUser new (some ctx.user)) then pure (.ok [])
      else pure (.fail s!"useradd: invalid user name '{name}'")
  | _ => pure (.fail useradd.usageLine)

/-- Deletes a user. -/
def runUserdel (ctx : Context) : Job Outcome := do
  match ctx.args with
  | [name] =>
    let s ← Job.machine
    match refusal? ctx "userdel" s with
    | some refusal => pure refusal
    | none =>
      if (s.accounts.user? name).isNone then return .fail s!"userdel: user '{name}' does not exist"
      if ← Job.act (Machine.deleteUser name (some ctx.user)) then pure (.ok [])
      else pure (.fail s!"userdel: cannot remove user '{name}'")
  | _ => pure (.fail userdel.usageLine)

/-- Changes a user's password, which is asked for twice. -/
def runPasswd (ctx : Context) : Job Outcome := do
  let target := ctx.args.headD ctx.user
  let s ← Job.machine
  if (s.accounts.user? target).isNone then return .fail s!"passwd: user '{target}' does not exist"
  match refusal? ctx "passwd" s with
  | some refusal => pure refusal
  | none =>
    let first ← Job.askPassword "New password:"
    let second ← Job.askPassword "Retype new password:"
    let shown := [first.shown, second.shown]
    if first.answer != second.answer then
      return Outcome.after (.fail "passwd: passwords do not match") shown
    if ← Job.act (Machine.updateUser target { password? := some first.answer } (some ctx.user)) then
      pure (Outcome.after (.ok ["passwd: password updated successfully"]) shown)
    else pure (Outcome.after (.fail "passwd: password unchanged") shown)

/-- Creates a group. -/
def runGroupadd (ctx : Context) : Job Outcome := do
  match ctx.args with
  | [name] =>
    let s ← Job.machine
    match refusal? ctx "groupadd" s with
    | some refusal => pure refusal
    | none =>
      if (s.accounts.group? name).isSome then
        return .fail s!"groupadd: group '{name}' already exists"
      if ← Job.act (Machine.addGroup name [] (some ctx.user)) then pure (.ok [])
      else pure (.fail s!"groupadd: cannot create group '{name}'")
  | _ => pure (.fail groupadd.usageLine)

/-- Deletes a group. -/
def runGroupdel (ctx : Context) : Job Outcome := do
  match ctx.args with
  | [name] =>
    let s ← Job.machine
    match refusal? ctx "groupdel" s with
    | some refusal => pure refusal
    | none =>
      if (s.accounts.group? name).isNone then
        return .fail s!"groupdel: group '{name}' does not exist"
      if ← Job.act (Machine.deleteGroup name (some ctx.user)) then pure (.ok [])
      else pure (.fail s!"groupdel: cannot remove group '{name}'")
  | _ => pure (.fail groupdel.usageLine)

/-- Makes a user a member of a group, or takes it out. -/
def changeMembership (ctx : Context) (add : Bool) (group user : String) : Job Outcome := do
  let s ← Job.machine
  match refusal? ctx "usermod" s with
  | some refusal => pure refusal
  | none =>
    if (s.accounts.user? user).isNone then return .fail s!"usermod: user '{user}' does not exist"
    if (s.accounts.group? group).isNone then
      return .fail s!"usermod: group '{group}' does not exist"
    let change := if add then Machine.addToGroup else Machine.removeFromGroup
    if ← Job.act (change user group (some ctx.user)) then pure (.ok [])
    else pure (.fail s!"usermod: no change to '{user}' in '{group}'")

/-- Changes the groups of a user. -/
def runUsermod (ctx : Context) : Job Outcome :=
  match ctx.args with
  | ["-aG", group, user] => changeMembership ctx true group user
  | ["-rG", group, user] => changeMembership ctx false group user
  | _ => pure (.fail usermod.usageLine)

end SimUnix.Command
