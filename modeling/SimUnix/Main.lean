/-
The console program: it takes the records of a directory, leads a dialog on the terminal, and brings
the directory up to date after every step. What is said in the dialog is decided by
`Console.Dialog`; nothing is decided here.

The directory is the first argument, else the value of `AURORA_OS_DATA`, else one in the home
directory.
-/
import SimUnix.Console.Dialog
import Std.Time.DateTime.Timestamp

namespace SimUnix.Console.Program

/-! ## Surroundings -/

/-- The variable that may name the directory of the records. -/
def directoryVariable : String := "AURORA_OS_DATA"

/-- The name of the directory of the records in the home directory. -/
def directoryName : String := ".aurora_os"

/-- The name of the host on a new system. -/
def hostname : String := "aurora"

/-- The width of a screen that does not tell its width. -/
def usualWidth : Int := 80

/-- Where the records are kept. -/
def directoryPath (args : List String) : IO String := do
  let home := (← IO.getEnv "HOME").getD "."
  pure ((args.head? <|> (← IO.getEnv directoryVariable)).getD (home ++ "/" ++ directoryName))

/-- The width of the screen. -/
def screenWidth : IO Int := do pure (((← IO.getEnv "COLUMNS").bind String.toInt?).getD usualWidth)

/-- The reading of the clock, in whole seconds of universal time. -/
def clock : IO Time.Stamp := do
  pure { seconds := (← Std.Time.Timestamp.now).toSecondsSinceUnixEpoch.val }

/-- A stem for the ids of this run, which no earlier run has used. -/
def freshStem : IO String := do
  let bytes ← IO.getRandomBytes 8
  pure (bytes.foldl (fun stem b => stem ++ toString b.toNat ++ "-") "")

/-! ## Records -/

/-- Reads the files of a directory, which is made if it is missing. A file that is no text counts as
an empty one. -/
def readDirectory (path : String) : IO Directory := do
  IO.FS.createDirAll path
  let mut files : Keyed String String := []
  for entry in ← ((← IO.currentDir) / path).readDir do
    if !(← entry.path.isDir) then
      let text ← try IO.FS.readFile entry.path catch _ => pure ""
      files := files.put entry.fileName text
  pure { path, files }

/-- Brings the files of a directory up to date. A file that changes is written beside its place
first and then put there. -/
def updateDirectory (old new : Directory) : IO Unit := do
  for (name, text) in new.files do
    if old.files.get? name != some text then
      let draft := s!"{new.path}/{name}.tmp"
      IO.FS.writeFile draft text
      IO.FS.rename draft s!"{new.path}/{name}"
  for (name, _) in old.files do
    if !new.files.has name then IO.FS.removeFile s!"{new.path}/{name}"

/-- Brings the files of a store up to date with those of a later one. -/
def updateStore : Store → Store → IO Unit
  | .files old, .files new => updateDirectory old new
  | _, _ => pure ()

/-! ## Dialog -/

/-- Reads a line from the terminal. What is typed in secret is concealed. -/
def read (r : Reading) : IO Input := do
  let out ← IO.getStdout
  out.putStr (r.prompt ++ if r.secret then escapeSign ++ "[8m" else "")
  out.flush
  let line ← (← IO.getStdin).getLine
  if r.secret then out.putStr (escapeSign ++ "[28m")
  pure (if line = "" then .endOfInput else .line (Text.cutAt '\n' line).1)

/-- Leads the dialog to its end, from a step whose effect on the store is still to be written. -/
def lead (store : Store) (first : Printed) : IO Dialog := do
  let mut written := store
  let mut step := first
  repeat
    updateStore written step.dialog.machine.store
    written := step.dialog.machine.store
    IO.print step.text
    match step.dialog.reading? with
    | none => break
    | some reading =>
      let typed ← read reading
      let machine := { step.dialog.machine with now := ← clock }
      step := { step.dialog with machine }.next (← screenWidth) typed
  pure step.dialog

/-- The exit code for an ending; a fault is told. -/
def exitCode : Ending → IO UInt32
  | .regular => pure 0
  | .endOfInput => pure 1
  | .interrupted => pure 130
  | .fault cause => do
    IO.eprintln (if cause.message = "" then "the system has failed" else cause.message)
    pure 1

end SimUnix.Console.Program

open SimUnix SimUnix.Console Program in
/-- Runs the console. -/
def main (args : List String) : IO UInt32 := do
  let store := Store.files (← readDirectory (← directoryPath args))
  let machine := Machine.create store hostname {} { stem := ← freshStem } (← clock)
  let dialog ← lead store (Dialog.start machine)
  match dialog.stage with
  | .over ending => exitCode ending
  | _ => pure 0
