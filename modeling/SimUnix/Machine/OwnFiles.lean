/-
The files that the system keeps itself: its directories, the files of users and groups, and home
directories. No permissions are asked for here, and nothing is logged or flushed.
-/
import SimUnix.Machine.Files

namespace SimUnix.Machine

/-- The directories of a new home. -/
def homeFolders : List String :=
  ["Desktop", "Documents", "Downloads", "Pictures", "Music", trashName]

/-- The owner, group and permissions of directories that are created on the way. -/
structure DirectoryStyle where
  owner : Json := rootName
  group : Json := rootName
  permissions : Json := directoryPermissions

/-- The child of a node that has a name, or a new node in its place. -/
def childOrNew (parent : NodeId) (new : NewNode) : Act NodeId := do
  let s ← get
  let dir ← Act.ofExcept (s.tree.node parent)
  match ← Act.ofExcept (s.tree.childNamed dir new.name) with
  | some child => pure child.id
  | none => addNew new parent

/-- Follows names from a node, creating the directories that are missing. -/
def ensureBelow (style : DirectoryStyle) (start : NodeId) : List String → Act NodeId
  | [] => pure start
  | name :: rest => do
    let child ← childOrNew start {
      name, kind := .directory, owner := style.owner, group := style.group
      permissions := style.permissions }
    ensureBelow style child rest

/-- Creates every missing directory along a path. -/
def ensureDirectory (path : String) (style : DirectoryStyle) : Act NodeId := do
  let root ← Act.ask fun s => s.tree.root
  ensureBelow style root.id (Path.nonEmptyComponents path)

/-- Writes a file of the system. A file that is there keeps everything but its content, and is left
alone if its content is right already. -/
def putSystemFile (dirPath name : String) (content permissions : Json) : Act NodeId := do
  let dirId ← ensureDirectory dirPath {}
  let s ← get
  let dir ← Act.ofExcept (s.tree.node dirId)
  match ← Act.ofExcept (s.tree.childNamed dir name) with
  | none => addNew { name, kind := .file, content, permissions } dirId
  | some n =>
    if n.content != content then
      Act.editTree (·.update n.id fun n => { n with content, modified := s.now })
    pure n.id

/-- Creates a user's home directory and the folders in it, as far as they are missing. -/
def createHome (u : User) : Act NodeId := do
  let group := (← get).accounts.groupName u.gid
  let (parent, name) := Path.split (← Act.ofExcept u.home.asOwnText)
  let parentId ← ensureDirectory (parentOrRoot parent) {}
  let home ← childOrNew parentId {
    name, kind := .directory, owner := u.name, group, permissions := "drwxr-x---" }
  for folder in homeFolders do
    discard <| childOrNew home {
      name := folder, kind := .directory, owner := u.name, group
      permissions := .str (if folder = trashName then "drwx------" else directoryPermissions) }
  pure home

/-- The file of users. -/
def usersPath : String := "/etc/passwd"

/-- The file of groups. -/
def groupsPath : String := "/etc/group"

/-- Writes the files of users and groups from the tables. -/
def syncFiles : Act Unit := do
  let users ← Act.ask (·.accounts.usersText)
  discard <| putSystemFile "/etc" "passwd" users filePermissions
  let groups ← Act.ask (·.accounts.groupsText)
  discard <| putSystemFile "/etc" "group" groups filePermissions

end SimUnix.Machine
