/-
Words and operators of a command line. Quotes keep blanks and operators inside a word; they stay
part of the word until `unquote` removes them. A quote that is not closed runs to the end of the
line.
-/
import SimUnix.Text.Blank

namespace SimUnix.Shell

/-- What stands between two pipelines. -/
inductive Control where
  | and
  | or
  | next
  deriving Repr, DecidableEq

/-- How a redirection treats what the file holds. -/
inductive Redirection where
  | write
  | append
  deriving Repr, DecidableEq

/-- An operator of the command language. -/
inductive Operator where
  | pipe
  | control (c : Control)
  | redirect (r : Redirection)
  deriving Repr, DecidableEq

/-- The written form of a control operator. -/
def Control.text : Control → String
  | and => "&&"
  | or => "||"
  | next => ";"

/-- The written form of a redirection operator. -/
def Redirection.text : Redirection → String
  | write => ">"
  | append => ">>"

/-- The written form of an operator. -/
def Operator.text : Operator → String
  | pipe => "|"
  | control c => c.text
  | redirect r => r.text

/-- A piece of a command line: an operator, or a word with its quotes. -/
inductive Token where
  | word (text : String)
  | op (operator : Operator)
  deriving Repr, DecidableEq

/-- The text of a token as it stands in the line. -/
def Token.text : Token → String
  | word text => text
  | op operator => operator.text

/-- A quote character. -/
def isQuote (c : Char) : Bool := c == '\'' || c == '"'

/-- The operator of one character. -/
def Operator.ofChar? (c : Char) : Option Operator :=
  if c = '|' then some .pipe
  else if c = ';' then some (.control .next)
  else if c = '>' then some (.redirect .write)
  else none

/-- The operator that two characters make together. -/
def Operator.ofPair? (c d : Char) : Option Operator :=
  if c = '&' ∧ d = '&' then some (.control .and)
  else if c = '|' ∧ d = '|' then some (.control .or)
  else if c = '>' ∧ d = '>' then some (.redirect .append)
  else none

/-- The token that the characters of a word make, none if only blanks are left of it. -/
def wordToken (word : List Char) : List Token :=
  let trimmed := Text.trimChars word
  if trimmed.isEmpty then [] else [.word (String.ofList trimmed)]

/-- The tokens of the rest of a line, given the quote that is open and the characters of the word
read so far. -/
def scan : Option Char → List Char → List Char → List Token
  | _, word, [] => wordToken word
  | some q, word, c :: rest => scan (if c = q then none else some q) (word ++ [c]) rest
  | none, word, [c] =>
    if isQuote c then wordToken (word ++ [c])
    else if Text.isBlank c then wordToken word
    else match Operator.ofChar? c with
      | some o => wordToken word ++ [.op o]
      | none => wordToken (word ++ [c])
  | none, word, c :: d :: rest =>
    if isQuote c then scan (some c) (word ++ [c]) (d :: rest)
    else if Text.isBlank c then wordToken word ++ scan none [] (d :: rest)
    else match Operator.ofPair? c d with
      | some o => wordToken word ++ .op o :: scan none [] rest
      | none => match Operator.ofChar? c with
        | some o => wordToken word ++ .op o :: scan none [] (d :: rest)
        | none => scan none (word ++ [c]) (d :: rest)

/-- The tokens of a line. -/
def tokenize (line : String) : List Token := scan none [] line.toList

/-- A word without its quotes, given the quote that is open. -/
def unquoteChars : Option Char → List Char → List Char
  | _, [] => []
  | some q, c :: rest => if c = q then unquoteChars none rest else c :: unquoteChars (some q) rest
  | none, c :: rest =>
    if isQuote c then unquoteChars (some c) rest else c :: unquoteChars none rest

/-- A word without its quotes; inside a pair of quotes the other quote stands for itself. -/
def unquote (word : String) : String := String.ofList (unquoteChars none word.toList)

/-- The words of a text without their quotes, operators left out. -/
def words (text : String) : List String :=
  (tokenize text).filterMap fun
    | .word w => some (unquote w)
    | .op _ => none

end SimUnix.Shell
