/-
Executable files: a marker and a name, for a program of the shell or for an application.
-/
import SimUnix.Command.Catalog
import SimUnix.Text.Blank
import SimUnix.Text.Split

namespace SimUnix

/-- What an executable file runs. -/
inductive Executable where
  | program (c : Command)
  | app (id : String)
  deriving Repr, DecidableEq

namespace Executable

/-- The first word of a program's file. -/
def programMark : String := "#command"

/-- The first word of an application's file. -/
def appMark : String := "#!app"

/-- The permissions of executable files. -/
def permissions : String := "-rwxr-xr-x"

/-- The content of a program's file. -/
def programContent (c : Command) : String := programMark ++ " " ++ c.name

/-- The content of an application's file. -/
def appContent (id : String) : String := appMark ++ " " ++ id

/-- The mark of a content and what stands after it. -/
def markAndRest (content : String) : String × String :=
  let (mark, rest) := Text.cutAt ' ' (Text.trim content)
  (mark, Text.trim rest)

/-- The application that a content names. -/
def appOf? (content : String) : Option String :=
  let (mark, rest) := markAndRest content
  if mark = appMark ∧ rest ≠ "" then some rest else none

/-- What a content runs, if it is that of an executable file. -/
def ofContent? (content : String) : Option Executable :=
  let (mark, rest) := markAndRest content
  match if mark = programMark then Command.program? rest else none with
  | some c => some (.program c)
  | none => (appOf? content).map .app

end Executable

end SimUnix
