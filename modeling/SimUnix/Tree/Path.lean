/-
Paths of the file tree. A canonical path starts with a slash and has no empty component and no dots
for components; the root is the slash alone.
-/
import SimUnix.Text.Blank
import SimUnix.Text.Split

namespace SimUnix.Path

/-- The path of the root. -/
def root : String := "/"

/-- The path without the slashes at its end. -/
def withoutTrailing (path : String) : String :=
  String.ofList (path.toList.reverse.dropWhile (· == '/')).reverse

/-- The components that a walk from the root follows. -/
def components (path : String) : List String :=
  if path = "" ∨ path = root then []
  else (Text.splitChars '/' (Text.trimBy (· == '/') path.toList)).map String.ofList

/-- The components of a path that are not empty. -/
def nonEmptyComponents (path : String) : List String := (Text.split '/' path).filter (· != "")

/-- The path that components make below the root. -/
def ofComponents (parts : List String) : String := "/" ++ Text.joinWith "/" parts

/-- The path of a child. -/
def join (parent name : String) : String := withoutTrailing parent ++ "/" ++ name

/-- Splits a path into the path of the parent and the name. The root has neither; of a path without
any slash all but the last character counts as the parent. -/
def split (path : String) : String × String :=
  if path = root then ("", "")
  else
    let cs := (withoutTrailing path).toList
    let name := (cs.reverse.takeWhile (· ≠ '/')).reverse
    match cs.reverse.dropWhile (· ≠ '/') with
    | [] => (String.ofList cs.dropLast, String.ofList cs)
    | [_] => (root, String.ofList name)
    | _ :: parent => (String.ofList parent.reverse, String.ofList name)

/-- Adds a component to those of a canonical path, nearest to the root first: empty ones and dots
stay out, and two dots take the last one back. -/
def push (parts : List String) (part : String) : List String :=
  if part = "" ∨ part = "." then parts
  else if part = ".." then parts.dropLast
  else parts ++ [part]

/-- The canonical form of an absolute path. -/
def normalize (path : String) : String := ofComponents ((Text.split '/' path).foldl push [])

/-- A name that a node may be given: neither empty nor dots, and without a slash. -/
def validName (name : String) : Bool :=
  name != "" && !name.toList.contains '/' && name != "." && name != ".."

end SimUnix.Path
