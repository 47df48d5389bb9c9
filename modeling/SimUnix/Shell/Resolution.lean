/-
What a command word runs: a builtin, a program, or what an executable file says.
-/
import SimUnix.Machine.Marker
import SimUnix.Machine.Query

namespace SimUnix.Shell

/-- The directories that are searched for a command word, in order. -/
def searchPath : List String := ["/bin", "/usr/bin"]

/-- Why a command word runs nothing. -/
inductive Unresolved where
  | noSuchFile
  | permissionDenied
  | notFound
  deriving Repr, DecidableEq

/-- The exit code of a command word that runs nothing. -/
def Unresolved.code : Unresolved → Nat
  | permissionDenied => 126
  | noSuchFile | notFound => 127

/-- The line that says why a command word runs nothing. -/
def Unresolved.message (word : String) : Unresolved → String
  | noSuchFile => s!"zsh: no such file or directory: {word}"
  | permissionDenied => s!"zsh: permission denied: {word}"
  | notFound => s!"{word}: command not found"

/-- What the file of a node runs. -/
def ofNode (n : Node) : Except Fault (Except Unresolved Executable) := do
  match Executable.ofContent? (← n.content.asOwnText) with
  | some e => .ok (.ok e)
  | none => .ok (.error .notFound)

/-- Whether a node is a file that a user may execute. -/
def isExecutable (s : Machine) (user : String) (n : Node) : Except Fault Bool :=
  if n.isDir then .ok false else s.can n .execute (some user)

/-- The first executable file of a name in some directories. -/
def searchIn (s : Machine) (user word : String) : List String → Except Fault (Option Node)
  | [] => .ok none
  | dir :: rest => do
    match ← s.nodeAt (Path.join dir word) (some user) with
    | some n => if ← isExecutable s user n then .ok (some n) else searchIn s user word rest
    | none => searchIn s user word rest

/-- What a command word runs for a user in a working directory. A word with a slash is the path of a
file. -/
def resolve (s : Machine) (word user cwd : String) : Except Fault (Except Unresolved Executable) :=
  match Command.builtin? word with
  | some c => .ok (.ok (.program c))
  | none =>
    if word.toList.contains '/' then do
      match ← s.nodeAt (← s.resolve word (some user) (some cwd)) (some user) with
      | none => .ok (.error .noSuchFile)
      | some n =>
        if ← isExecutable s user n then ofNode n else .ok (.error .permissionDenied)
    else match Command.program? word with
      | some c => .ok (.ok (.program c))
      | none => do
        match ← searchIn s user word searchPath with
        | some n => ofNode n
        | none => .ok (.error .notFound)

end SimUnix.Shell
