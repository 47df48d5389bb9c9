/-
The commands that list, show, create, move, copy and remove files. All work is done for the acting
user; where it fails, the command says why.
-/
import SimUnix.Command.Context

namespace SimUnix.Command

/-- The line that shows a node in full. -/
def longLine (n : Node) : Except Fault String := do
  let size := Text.padLeft 6 (toString (← n.size))
  .ok s!"{n.permissions.plain}  {n.owner.plain} {n.group.plain}  {size}  {n.name.plain}"

/-- The nodes whose names start with no dot; the names must be texts for that. -/
def unhidden (nodes : List Node) : Except Fault (List Node) :=
  nodes.filterM fun n => do .ok (!Text.startsWith (← n.name.asOwnText) ".")

/-- The contents of a directory as `ls` shows them. -/
def listing (flags : List Char) (toScreen : Bool) (contents : List Node) :
    Except Fault (List Line) := do
  let visible ← if flags.contains 'a' then .ok contents else unhidden contents
  if flags.contains 'l' then visible.mapM fun n => (longLine n).map .text
  else if toScreen then
    let names ← visible.mapM (·.name.asText)
    let directories ← (visible.filter (·.isDir)).mapM (·.name.asText)
    .ok (if visible.isEmpty then [] else [.columns names directories])
  else .ok (visible.map fun n => Line.ofJson n.name)

/-- What `ls` shows for one operand, and whether that is an error. -/
def listOne (ctx : Context) (flags : List Char) (arg : String) : Job (List Line × Bool) := do
  let shown := if arg = "" then "." else arg
  let path ← if arg = "" then pure ctx.cwd else ctx.resolve arg
  match ← ctx.nodeAt path with
  | none => pure ([.text s!"ls: {shown}: No such file or directory"], true)
  | some n =>
    if !n.isDir then
      let line ← Job.ofExcept <|
        if flags.contains 'l' then (longLine n).map .text else .ok (Line.ofJson n.name)
      return ([line], false)
    match ← Job.ask fun s => s.listDirectory path (some ctx.user) with
    | none => pure ([.text s!"ls: cannot open directory '{shown}': Permission denied"], true)
    | some contents =>
      pure (← Job.ofExcept (listing flags ctx.toScreen contents), false)

/-- The heading of an operand where there are several. -/
def heading (index : Nat) (arg : String) : List Line :=
  (if index = 0 then [] else [.text ""]) ++ [.text ((if arg = "" then "." else arg) ++ ":")]

/-- Lists directories. -/
def runLs (ctx : Context) : Job Outcome := do
  let (flags, operands) := Context.flagsAndOperands ctx.args
  let targets := if operands.isEmpty then [""] else operands
  let parts ← targets.zipIdx.mapM fun (arg, index) => do
    let (lines, error) ← listOne ctx flags arg
    pure ((if 1 < targets.length then heading index arg else []) ++ lines, error)
  pure { output := parts.flatMap (·.1), error := parts.any (·.2) }

/-- What `cat` shows for one operand, and whether that is an error. -/
def showOne (ctx : Context) (arg : String) : Job (List Line × Bool) := do
  let path ← ctx.resolve arg
  match ← ctx.fileLines? path with
  | some lines => pure (lines.map .text, false)
  | none =>
    match ← ctx.nodeAt path with
    | some n =>
      let problem := if n.isDir then "Is a directory" else "Permission denied"
      pure ([.text s!"cat: {arg}: {problem}"], true)
    | none => pure ([.text s!"cat: {arg}: No such file or directory"], true)

/-- Shows files, or the input. -/
def runCat (ctx : Context) : Job Outcome := do
  if ctx.args.isEmpty then
    return if ctx.input.isEmpty then .fail "cat: missing file operand" else .ok ctx.input
  let parts ← ctx.args.mapM (showOne ctx)
  pure { output := parts.flatMap (·.1), error := parts.any (·.2) }

/-- Creates the missing directories along a path; the result is the problem that was met, if any. -/
def makeParents (ctx : Context) (arg : String) (current : String) :
    List String → Job (Option String)
  | [] => pure none
  | name :: rest => do
    let child := Path.join current name
    match ← ctx.nodeAt child with
    | none =>
      if ← Job.act (Machine.createDirectory current name (some ctx.user)) then
        makeParents ctx arg child rest
      else pure (some s!"mkdir: cannot create directory '{arg}': Permission denied")
    | some n =>
      if n.isDir then makeParents ctx arg child rest
      else pure (some s!"mkdir: cannot create directory '{arg}': Not a directory")

/-- Creates one directory; the result is the problem that was met, if any. -/
def makeOne (ctx : Context) (flags : List Char) (arg : String) : Job (Option String) := do
  let path ← ctx.resolve arg
  if flags.contains 'p' then return ← makeParents ctx arg Path.root (Path.nonEmptyComponents path)
  let problem (why : String) : Option String :=
    some s!"mkdir: cannot create directory '{arg}': {why}"
  if ← ctx.pathExists path then return problem "File exists"
  let (parent, name) := Path.split path
  let parent := Machine.parentOrRoot parent
  if !(← ctx.pathExists parent) then return problem "No such file or directory"
  if ← Job.act (Machine.createDirectory parent name (some ctx.user)) then pure none
  else pure (problem "Permission denied")

/-- Performs something for every operand and collects the problems that were met. -/
def forOperands (operands : List String) (perform : String → Job (Option String)) :
    Job Outcome := do
  pure (.ofProblems (← operands.mapM perform).reduceOption)

/-- Creates directories. -/
def runMkdir (ctx : Context) : Job Outcome := do
  let (flags, operands) := Context.flagsAndOperands ctx.args
  if operands.isEmpty then return .fail "mkdir: missing operand"
  forOperands operands (makeOne ctx flags)

/-- Creates a file or marks it as modified; the result is the problem that was met, if any. -/
def touchOne (ctx : Context) (arg : String) : Job (Option String) := do
  let path ← ctx.resolve arg
  let problem (why : String) : Option String := some s!"touch: cannot touch '{arg}': {why}"
  match ← ctx.nodeAt path with
  | some n =>
    if n.isDir then pure none
    else if ← Job.act (Machine.overwriteFile path n.content (some ctx.user)) then pure none
    else pure (problem "Permission denied")
  | none =>
    let (parent, name) := Path.split path
    let parent := Machine.parentOrRoot parent
    if !(← ctx.pathExists parent) then pure (problem "No such file or directory")
    else if ← Job.act (Machine.createFile parent name "" (some ctx.user) none) then pure none
    else pure (problem "Permission denied")

/-- Creates files or marks them as modified. -/
def runTouch (ctx : Context) : Job Outcome := do
  if ctx.args.isEmpty then return .fail "touch: missing file operand"
  forOperands ctx.args (touchOne ctx)

/-- Removes one node, for good or into the trash; the result is the problem that was met, if any. -/
def removeOne (ctx : Context) (flags : List Char) (trash arg : String) : Job (Option String) := do
  let path ← ctx.resolve arg
  let problem (why : String) : Option String := some s!"rm: cannot remove '{arg}': {why}"
  match ← ctx.nodeAt path with
  | none => pure (if flags.contains 'f' then none else problem "No such file or directory")
  | some n =>
    if n.isDir && !flags.contains 'r' && !flags.contains 'R' then return problem "Is a directory"
    let forGood := flags.contains 'f' || path == trash || Text.startsWith path (trash ++ "/")
    let done ← Job.act <|
      if forGood then Machine.deleteNode path (some ctx.user)
      else Machine.moveToTrash path (some ctx.user)
    pure (if done then none else problem "Permission denied")

/-- Removes nodes. -/
def runRm (ctx : Context) : Job Outcome := do
  let (flags, operands) := Context.flagsAndOperands ctx.args
  if operands.isEmpty then return .fail "rm: missing operand"
  let trash ← Job.ask (·.trashPath (some ctx.user))
  forOperands operands (removeOne ctx flags trash)

/-- Empties the trash. -/
def runEmptytrash (ctx : Context) : Job Outcome := do
  let count ← Job.act (Machine.emptyTrash (some ctx.user))
  pure (.ok [s!"Removed {count} item(s) from the trash."])

/-- Moves or renames a node. -/
def runMv (ctx : Context) : Job Outcome := do
  match ctx.args with
  | sourceArg :: destArg :: _ =>
    let source ← ctx.resolve sourceArg
    let dest ← ctx.resolve destArg
    match ← ctx.nodeAt source with
    | none => pure (.fail s!"mv: cannot stat '{sourceArg}': No such file or directory")
    | some n =>
      if n.isDir &&
          (dest == source || Text.startsWith dest (Path.withoutTrailing source ++ "/")) then
        return .fail s!"mv: cannot move '{sourceArg}' to a subdirectory of itself, '{destArg}'"
      if (← ctx.nodeAt dest).any (!·.isDir) then
        return .fail s!"mv: cannot move '{sourceArg}' to '{destArg}': File exists"
      if ← Job.act (Machine.moveNode source dest (some ctx.user)) then pure (.ok [])
      else pure (.fail s!"mv: cannot move '{sourceArg}' to '{destArg}': Permission denied")
  | _ => pure (.fail "mv: missing file operand")

/-- Where a copy goes: into a directory under the old name, or to a place of its own. -/
def copyPlace (n : Node) (dest : String) (dest? : Option Node) : String × String :=
  if dest?.any (·.isDir) then (dest, n.name.plain)
  else
    let (parent, name) := Path.split dest
    (Machine.parentOrRoot parent, name)

/-- Copies a node over another one, which must be a file like the first. -/
def copyOver (ctx : Context) (n existing : Node) (sourceArg destArg target : String) :
    Job Outcome := do
  if existing.id == n.id then
    return .fail s!"cp: '{sourceArg}' and '{destArg}' are the same file"
  if existing.isDir || n.isDir then return .fail s!"cp: cannot overwrite '{target}': File exists"
  if ← Job.act (Machine.overwriteFile target n.content (some ctx.user)) then pure (.ok [])
  else pure (.fail s!"cp: cannot create regular file '{target}': Permission denied")

/-- Copies nodes. -/
def runCp (ctx : Context) : Job Outcome := do
  let (flags, operands) := Context.flagsAndOperands ctx.args
  match operands with
  | sourceArg :: destArg :: _ =>
    match ← ctx.nodeAt (← ctx.resolve sourceArg) with
    | none => pure (.fail s!"cp: cannot stat '{sourceArg}': No such file or directory")
    | some n =>
      if n.isDir && !flags.contains 'r' && !flags.contains 'R' then
        return .fail s!"cp: -r not specified; omitting directory '{sourceArg}'"
      if !(← Job.ask (·.can n .read (some ctx.user))) then
        return .fail s!"cp: cannot open '{sourceArg}' for reading: Permission denied"
      let dest ← ctx.resolve destArg
      let (parent, name) := copyPlace n dest (← ctx.nodeAt dest)
      if !(← ctx.pathExists parent) then
        return .fail s!"cp: cannot create regular file '{destArg}': No such file or directory"
      let target := Path.join parent name
      match ← ctx.nodeAt target with
      | some existing => copyOver ctx n existing sourceArg destArg target
      | none =>
        if ← Job.act (Machine.copyById n.id parent (some ctx.user) none (some name)) then
          pure (.ok [])
        else pure (.fail s!"cp: cannot create regular file '{target}': Permission denied")
  | _ => pure (.fail "cp: missing file operand")

/-- Performs a change of a node that has to exist; the result is the problem that was met, if
any. -/
def changeOne (ctx : Context) (name refusal : String) (change : String → Act Bool) (arg : String) :
    Job (Option String) := do
  let path ← ctx.resolve arg
  if (← Job.ask fun s => s.obstacle? path (some ctx.user) .read) = some .notFound then
    return some s!"{name}: cannot access '{arg}': No such file or directory"
  if ← Job.act (change path) then pure none
  else pure (some s!"{name}: {refusal} of '{arg}': Operation not permitted")

/-- Changes permissions. -/
def runChmod (ctx : Context) : Job Outcome := do
  match ctx.args with
  | mode :: path :: paths =>
    match Mode.parse mode with
    | .error _ => pure (.fail s!"chmod: invalid mode: '{mode}'")
    | .ok _ =>
      forOperands (path :: paths)
        (changeOne ctx "chmod" "changing permissions" fun path =>
          Machine.chmod path mode (some ctx.user))
  | _ => pure (.fail "chmod: missing operand")

/-- Changes owners and groups. -/
def runChown (ctx : Context) : Job Outcome := do
  match ctx.args with
  | spec :: path :: paths =>
    let (owner, group) := Text.cutAt ':' spec
    let s ← Job.machine
    if (s.accounts.user? owner).isNone then return .fail s!"chown: invalid user: '{spec}'"
    if group != "" && (s.accounts.group? group).isNone then
      return .fail s!"chown: invalid group: '{spec}'"
    let group? := if group = "" then none else some group
    forOperands (path :: paths)
      (changeOne ctx "chown" "changing ownership" fun path =>
        Machine.chown path owner group? (some ctx.user))
  | _ => pure (.fail chown.usageLine)

end SimUnix.Command
