/-
Wildcards in arguments: a star stands for any characters but line feeds.
-/
import SimUnix.Text.Split

namespace SimUnix.Shell

/-- Whether a name can be obtained from a pattern by replacing every star. A line feed at the end of
the name may be left over. -/
def globMatches : List Char → List Char → Bool
  | [], name => name == [] || name == ['\n']
  | '*' :: pattern, [] => globMatches pattern []
  | '*' :: pattern, c :: name =>
    globMatches pattern (c :: name) || (c != '\n' && globMatches ('*' :: pattern) name)
  | p :: pattern, c :: name => p == c && globMatches pattern name
  | _ :: _, [] => false
termination_by pattern name => pattern.length + name.length

/-- Whether a name is hidden. -/
def isHidden (name : String) : Bool := Text.startsWith name "."

/-- Whether an argument is a pattern: it has a star and no slash. -/
def isGlob (arg : String) : Bool := arg.toList.contains '*' && !arg.toList.contains '/'

/-- The names that a pattern stands for, in their order; hidden ones only for a pattern that starts
with a dot. -/
def globMatching (pattern : String) (names : List String) : List String :=
  names.filter fun name =>
    globMatches pattern.toList name.toList && (isHidden pattern || !isHidden name)

/-- The arguments with every pattern replaced by the names it stands for; a pattern that stands for
none stays. -/
def expandArgs (names : List String) (args : List String) : List String :=
  args.flatMap fun arg =>
    if isGlob arg then
      match globMatching arg names with
      | [] => [arg]
      | found => found
    else [arg]

end SimUnix.Shell
