/-
What the console prints: the banner with the boot log, and blocks with their emphasis.
-/
import SimUnix.Terminal.History

namespace SimUnix.Console

/-- The sign that starts a control sequence of the screen. -/
def escapeSign : String := (Char.ofNat 27).toString

/-- The sequence that switches an emphasis on, where it has one. -/
def switchOn? : Style → Option String
  | .error => some (escapeSign ++ "[31m")
  | .warning => some (escapeSign ++ "[33m")
  | .directory => some (escapeSign ++ "[34m")
  | .plain => none

/-- A text with an emphasis. -/
def paint (style : Style) (text : String) : String :=
  match switchOn? style with
  | some sequence => sequence ++ text ++ escapeSign ++ "[0m"
  | none => text

/-- The sequence that clears the screen. -/
def clearScreen : String := escapeSign ++ "[2J" ++ escapeSign ++ "[H"

/-- The text of a line of output. -/
def lineText (width : Int) : Line → Except Fault String
  | .columns names directories =>
    .ok (Columns.render names width fun n => paint (Columns.styleOf directories n) n)
  | .banner lines style => (bannerText lines).map (paint style)
  | line => line.render width

/-- The text of a line of output, unless nothing is to be seen of it. Plain text always counts. -/
def shownText? (width : Int) (line : Line) : Except Fault (Option String) := do
  let text ← lineText width line
  match line with
  | .text _ => .ok (some text)
  | _ => .ok (if text = "" then none else some text)

/-- The text of a block. -/
def blockText (width : Int) (b : Block) : Except Fault String := do
  let texts ← b.output.mapM (shownText? width)
  .ok (Text.joinLines (texts.filterMap id))

/-- The width of the banner's border. -/
def borderWidth : Nat := 38

/-- The banner with the boot log. -/
def bootText (bootLog : List String) : String :=
  let border := String.ofList (List.replicate borderWidth '=')
  s!"\n  {border}\n            AuroraOS\n      A simulated Unix-like system\n  {border}\n\n"
    ++ Text.joinLines (bootLog.map ("  " ++ ·))
    ++ "\nType 'help' for commands, 'exit' to quit.\n"

end SimUnix.Console
