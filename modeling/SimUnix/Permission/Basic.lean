/-
Permission strings: a type flag and three triplets of `r`, `w` and `x`, for the owner, the group
and everyone else. `allows` decides an access by exactly one triplet; root passes without a look
unless the system is in safe mode, where nothing may be written at all.
-/
import SimUnix.Json.Basic

namespace SimUnix

/-- The name of the superuser. -/
def rootName : String := "root"

/-- A kind of access to a node. -/
inductive Access where
  | read
  | write
  | execute
  deriving Repr, DecidableEq

/-- The access of a name. -/
def Access.ofName (s : String) : Except Fault Access :=
  if s = "read" then .ok .read
  else if s = "write" then .ok .write
  else if s = "execute" then .ok .execute
  else .error (.badValue (.choice (Text.quoted s) "PermissionMode"))

/-- The letter that grants an access. -/
def Access.letter : Access → Char
  | read => 'r'
  | write => 'w'
  | execute => 'x'

/-- The place of an access in a triplet. -/
def Access.place : Access → Nat
  | read => 0
  | write => 1
  | execute => 2

/-- The value of an access in the octal digit of a triplet. -/
def Access.weight : Access → Nat
  | read => 4
  | write => 2
  | execute => 1

/-- The three accesses in the order of their places. -/
def Access.all : List Access := [.read, .write, .execute]

/-- A class of users that a triplet speaks of. -/
inductive Class where
  | owner
  | group
  | other
  deriving Repr, DecidableEq

/-- Where the triplet of a class starts. -/
def Class.start : Class → Nat
  | owner => 1
  | group => 4
  | other => 7

/-- The three classes in the order of their triplets. -/
def Class.all : List Class := [.owner, .group, .other]

/-- The default permissions of a file. -/
def filePermissions : String := "-rw-r--r--"

/-- The default permissions of a directory. -/
def directoryPermissions : String := "drwxr-xr-x"

namespace Permission

/-- The flags that permissions are made of: the characters of a text. A list has its items in their
place. -/
def flagsOf : Json → Except Fault (List Json)
  | .str s => .ok (s.toList.map fun c => .str c.toString)
  | .arr items => .ok items
  | _ => .error .wrongShape

/-- The triplet of a class; it has less than three flags where they end early. -/
def triplet {α : Type} (flags : List α) (c : Class) : List α := (flags.drop c.start).take 3

/-- Whether the triplet of a class is whole and grants an access. -/
def grants (flags : List Json) (c : Class) (access : Access) : Bool :=
  let t := triplet flags c
  t.length == 3 && t[access.place]? == some (.str access.letter.toString)

/-- The one who asks for an access: a name and the names of its groups. -/
structure Subject where
  name : Json
  groups : List Json
  deriving Repr, DecidableEq

/-- The class that a subject belongs to on a node of the given owner and group. A group that is no
key cannot be looked for. -/
def classOf (owner group : Json) (subject : Subject) : Except Fault Class :=
  if subject.name == rootName || owner == subject.name then .ok .owner
  else if !group.isKey then .error .wrongShape
  else .ok (if subject.groups.contains group then .group else .other)

/-- Whether a subject may access a node. Owner, group and permissions are looked at only where the
answer hangs on them. -/
def allows (permissions owner group : Json) (subject : Subject) (access : Access)
    (safeMode : Bool) : Except Fault Bool :=
  if safeMode && access == .write then .ok false
  else if !safeMode && subject.name == rootName then .ok true
  else do
    let c ← classOf owner group subject
    .ok (grants (← flagsOf permissions) c access)

/-- The octal digit of a triplet: the weights of the accesses that it grants. -/
def tripletValue (t : List Char) : Nat :=
  Access.all.foldl (fun n a => if t[a.place]? == some a.letter then n + a.weight else n) 0

/-- The three octal digits of a permission string. -/
def octal (permissions : String) : String :=
  String.join (Class.all.map fun c => toString (tripletValue (triplet permissions.toList c)))

end Permission

end SimUnix
