/-
The scrollback and the command lines of a terminal's acting user, kept in the store under the
user's name, and the recall of earlier lines.
-/
import SimUnix.Output
import SimUnix.Store

namespace SimUnix

/-- A block of scrollback: the line that was typed and what came of it. The line and the prompt are
texts in every block that is made here; a stored block keeps whatever its record holds. -/
structure Block where
  command : Json := .str ""
  output : List Line := []
  error : Bool := false
  prompt : Json := .str ""
  deriving Repr, DecidableEq

namespace Block

/-- The width for which stored output is laid out. -/
def storedWidth : Int := 80

/-- The output of a block as plain text, line by line. -/
def plainOutput (b : Block) : Except Fault (List String) := b.output.mapM (·.render storedWidth)

/-- The stored form of a block, with its output as plain text. -/
def toJson (b : Block) : Except Fault Json := do
  .ok (.obj [("command", b.command), ("output", Json.texts (← b.plainOutput)),
    ("error", .bool b.error), ("prompt", b.prompt)])

/-- The block of a stored form. Every field may be absent. -/
def ofJson (record : Json) : Except Fault Block := do
  let command ← record.field? "command"
  let output ← match ← record.field? "output" with
    | none => .ok []
    | some value => .ok ((← value.items).map Line.ofJson)
  let error ← record.field? "error"
  let prompt ← record.field? "prompt"
  .ok {
    command := command.getD (.str ""), output, error := error.any Json.truthy
    prompt := prompt.getD (.str "") }

end Block

/-- The history of one user: blocks and command lines, oldest first, how many of each are kept, and
the line that was recalled last. A command line is a text wherever it was typed; a stored one is
kept as it is. -/
structure History where
  user : String
  maxBlocks : Int := 500
  maxCommands : Int := 1000
  blocks : List Block := []
  commands : List Json := []
  cursor? : Option Nat := none
  deriving Repr, DecidableEq

/-- A change of a history and of the store that keeps it. What is done before a failure stays
done. -/
abbrev Remember := ExceptT Fault (StateM (History × Store))

namespace History

/-- The newest items of a list, as many as a limit says. A limit of zero keeps everything, and a
negative one drops as many of the oldest. -/
def newest {α : Type} (limit : Int) (items : List α) : List α :=
  if 0 < limit then items.drop (items.length - limit.toNat)
  else items.drop (-limit).toNat

/-! ## Records -/

/-- The stored form of the blocks. -/
def blocksJson (h : History) : Except Fault Json := (h.blocks.mapM Block.toJson).map .arr

/-- The blocks of a user's record. -/
def storedBlocks (user : String) (store : Store) : Except Fault (List Block) := do
  match ← store.getFilled (Store.historyKey user) with
  | none => .ok []
  | some record => (← record.items).mapM Block.ofJson

/-- The command lines of a user's record. -/
def storedCommands (user : String) (store : Store) : Except Fault (List Json) := do
  match ← store.getFilled (Store.inputKey user) with
  | none => .ok []
  | some record => record.items

/-- Changes the history alone. -/
def change (f : History → History) : Remember Unit := modify fun hs => (f hs.1, hs.2)

/-- Writes both records of the user. Nothing is written if a block has no stored form. -/
def save : Remember Unit := do
  let h := (← get).1
  match h.blocksJson with
  | .error e => throw e
  | .ok blocks =>
    put (Store.historyKey h.user) blocks
    put (Store.inputKey h.user) (.arr h.commands)
where
  /-- Writes one record. -/
  put (key : String) (value : Json) : Remember Unit := do
    let (h, store) ← get
    match store.write key value with
    | .error e => throw e
    | .ok store => set (h, store)

/-- Reads both records of the user. If one cannot be read, what was read before it is kept. -/
def load : Remember Unit := do
  let (h, store) ← get
  match storedBlocks h.user store with
  | .error e => throw e
  | .ok blocks =>
    set ({ h with blocks }, store)
    match storedCommands h.user store with
    | .error e => throw e
    | .ok commands => set ({ h with blocks, commands, cursor? := none }, store)

/-! ## Changes -/

/-- Adds a line to the command lines, unless it repeats the last one. -/
def withCommand (line : String) (h : History) : History :=
  if h.commands.getLast? = some (.str line) then h
  else { h with commands := newest h.maxCommands (h.commands ++ [.str line]) }

/-- Remembers a line that was typed, unless it is blank. -/
def record (line : String) : Remember Unit := do
  change fun h => { h with cursor? := none }
  if !Text.allBlank line then
    change (withCommand line)
    save

/-- Adds a block to the scrollback. -/
def add (b : Block) : Remember Unit := do
  change fun h => { h with blocks := newest h.maxBlocks (h.blocks ++ [b]) }
  save

/-- Empties the scrollback; the command lines stay. -/
def clear : Remember Unit := do
  change fun h => { h with blocks := [] }
  save

/-- Saves the history and goes over to another user's. -/
def switch (user : String) : Remember Unit := do
  if user != (← get).1.user then
    save
    change fun h => { h with user }
    load

/-! ## Recall -/

/-- Recalls the line before the one recalled last; without any line the current input stays. -/
def up (h : History) (current : String) : Json × History :=
  match h.commands with
  | [] => (.str current, h)
  | first :: rest =>
    let position := h.cursor?.getD h.commands.length - 1
    ((first :: rest).getD position "", { h with cursor? := some position })

/-- Recalls the line after the one recalled last; after the last line comes an empty one. -/
def down (h : History) : Json × History :=
  match h.cursor? with
  | none => ("", h)
  | some position =>
    match h.commands[position + 1]? with
    | some line => (line, { h with cursor? := some (position + 1) })
    | none => ("", { h with cursor? := none })

end History

end SimUnix
