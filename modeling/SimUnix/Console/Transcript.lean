/-
Transcripts: what a console prints and asks for while a user types given inputs.
-/
import SimUnix.Console.Dialog

namespace SimUnix.Console

/-- A thing that happens on a console. -/
inductive Event where
  | printed (text : String)
  | asked (reading : Reading)
  deriving Repr, DecidableEq

/-- What happened on a console, and where it is after that. -/
structure Transcript where
  events : List Event
  dialog : Dialog

/-- The event of printing a text, if there is any. -/
def Event.ofText (text : String) : List Event := if text = "" then [] else [.printed text]

/-- Puts events in front of a transcript. -/
def Transcript.after (earlier : List Event) (t : Transcript) : Transcript :=
  { t with events := earlier ++ t.events }

/-- Plays inputs to a console, until it reads no more or the inputs are used up. -/
def Printed.play (width : Int) (p : Printed) : List Input → Transcript
  | [] => { events := Event.ofText p.text, dialog := p.dialog }
  | typed :: rest =>
    match p.dialog.reading? with
    | none => { events := Event.ofText p.text, dialog := p.dialog }
    | some reading =>
      ((p.dialog.next width typed).play width rest).after (Event.ofText p.text ++ [.asked reading])

/-- The ending of a console that is over. -/
def Dialog.ending? (d : Dialog) : Option Ending :=
  match d.stage with
  | .over ending => some ending
  | _ => none

end SimUnix.Console
