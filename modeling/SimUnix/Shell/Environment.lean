/-
The variables of a terminal, and their expansion in a command line.
-/

namespace SimUnix.Shell

/-- The variables of a terminal by name. -/
structure Environment where
  vars : List (String × String) := []
  deriving Repr, DecidableEq

namespace Environment

/-- The terminal type that programs are told. -/
def terminalType : String := "xterm-256color"

/-- The variables that a terminal starts with. -/
def forSession (user home cwd : String) : Environment :=
  { vars := [("USER", user), ("HOME", home), ("PWD", cwd), ("TERM", terminalType)] }

/-- The value of a variable. -/
def get? (env : Environment) (name : String) : Option String := env.vars.lookup name

/-- Gives a variable a value. -/
def set (env : Environment) (name value : String) : Environment :=
  { vars := (name, value) :: env.vars.filter (·.1 != name) }

/-- A character of a variable's name: an ASCII letter or digit or an underscore. -/
def isNameChar (c : Char) : Bool := c.isAlphanum || c == '_'

/-- Expands the rest of a text. `name` holds the characters of the name being read, if a dollar sign
stands before it. -/
def expandChars (env : Environment) : Option (List Char) → List Char → List Char
  | none, [] => []
  | some name, [] => value name
  | none, c :: rest =>
    if c = '$' then expandChars env (some []) rest else c :: expandChars env none rest
  | some name, c :: rest =>
    if isNameChar c then expandChars env (some (name ++ [c])) rest
    else if c = '$' then value name ++ expandChars env (some []) rest
    else value name ++ c :: expandChars env none rest
where
  /-- What a dollar sign and the name after it expand to; a dollar sign alone stays. -/
  value (name : List Char) : List Char :=
    if name.isEmpty then ['$'] else ((env.get? (String.ofList name)).getD "").toList

/-- Replaces every dollar sign and name by the variable's value, which is empty if it is not set. -/
def expand (env : Environment) (text : String) : String :=
  String.ofList (expandChars env none text.toList)

end Environment

end SimUnix.Shell
