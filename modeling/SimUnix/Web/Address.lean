/-
The addresses of the host: which handler an address names once its parts are told apart and its
escaped bytes are read.
-/
import SimUnix.Text.Blank
import SimUnix.Text.Split

namespace SimUnix.Web

/-- What the host has to offer. -/
inductive Route where
  | page
  | execute
  | complete
  | status
  deriving Repr, DecidableEq

namespace Route

/-- The path of a route. -/
def path : Route → String
  | page => "/"
  | execute => "/api/execute"
  | complete => "/api/complete"
  | status => "/api/status"

/-- The method of a route. -/
def method : Route → String
  | page | status => "GET"
  | execute | complete => "POST"

/-- All routes. -/
def all : List Route := [page, execute, complete, status]

/-- The route of a path. -/
def ofPath? (p : String) : Option Route := all.find? (·.path == p)

end Route

namespace Address

/-- What stands before a host in an address, if there is one. -/
def afterScheme (cs : List Char) : List Char :=
  match cs.span (· != ':') with
  | (first :: rest, ':' :: tail) =>
    if first.isAlpha && rest.all fun c => c.isAlphanum || c == '+' || c == '-' || c == '.' then tail
    else cs
  | _ => cs

/-- An address without the name of a host. -/
def afterHost : List Char → List Char
  | '/' :: '/' :: rest => rest.dropWhile fun c => c != '/' && c != '?' && c != '#'
  | cs => cs

/-- The path part of an address, up to a query or a fragment. Line breaks and tabs count for
nothing, and neither do blanks before it. -/
def pathPart (address : String) : List Char :=
  let cs := (address.toList.dropWhile (·.toNat ≤ 32)).filter fun c =>
    c != '\t' && c != '\n' && c != '\r'
  (afterHost (afterScheme cs)).takeWhile fun c => c != '?' && c != '#'

/-- The value of a hexadecimal digit. -/
def hexDigit? (c : Char) : Option Nat :=
  if '0' ≤ c ∧ c ≤ '9' then some (c.toNat - 48)
  else if 'a' ≤ c ∧ c ≤ 'f' then some (c.toNat - 87)
  else if 'A' ≤ c ∧ c ≤ 'F' then some (c.toNat - 55)
  else none

/-- The text with its escaped bytes read, each as a character of its own. Only those of ASCII can
belong to a route. -/
def unescaped : List Char → List Char
  | '%' :: a :: b :: rest =>
    match hexDigit? a, hexDigit? b with
    | some high, some low => Char.ofNat (high * 16 + low) :: unescaped rest
    | _, _ => '%' :: unescaped (a :: b :: rest)
  | c :: rest => c :: unescaped rest
  | [] => []

/-- The path that an address asks for, with a single slash before it. -/
def path (address : String) : String :=
  String.ofList ('/' :: (unescaped (pathPart address)).dropWhile (· == '/'))

/-- A path with every two slashes in a row made one. -/
def merged : List Char → List Char
  | '/' :: '/' :: rest => '/' :: merged rest
  | c :: rest => c :: merged rest
  | [] => []

/-- What an address leads to: a route, or the route of a path that is written with fewer slashes. -/
inductive Target where
  | route (r : Route)
  | elsewhere (r : Route)
  | nothing

/-- The target of an address. -/
def target (address : String) : Target :=
  let p := path address
  match Route.ofPath? p, Route.ofPath? (String.ofList (merged p.toList)) with
  | some r, _ => .route r
  | none, some r => .elsewhere r
  | none, none => .nothing

end Address

end SimUnix.Web
