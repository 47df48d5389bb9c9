/-
The integrity check: the files of users and groups are compared with the tables by their digests. A
mismatch puts the system into safe mode.
-/
import SimUnix.Machine.OwnFiles

namespace SimUnix

/-- The outcome of a check. -/
structure IntegrityReport where
  valid : Bool
  /-- The paths of the files that have changed. -/
  failures : List Json := []
  deriving Repr, DecidableEq

/-- The lines that tell the user what a failed check means. -/
def IntegrityReport.diagnostic (r : IntegrityReport) : List String :=
  if r.valid then []
  else
    ["CRITICAL ERROR: SYSTEM INTEGRITY COMPROMISED"]
      ++ r.failures.map ("Modified: " ++ Json.plain ·)
      ++ ["Entering Safe Mode: Write access disabled. Root access disabled."]

/-- The digest by which a protected text is compared. -/
def signature (text : String) : String := Sha256.ofText text

namespace Machine

/-- The protected files and the texts they must have. -/
def protectedFiles (s : Machine) : List (String × Except Fault String) :=
  [(usersPath, s.accounts.usersText), (groupsPath, s.accounts.groupsText)]

/-- Whether a file has a text, as far as the digests tell. -/
def isIntact (s : Machine) (path : String) (text : Except Fault String) : Except Fault Bool := do
  match ← s.tree.lookup path with
  | none => .ok false
  | some n =>
    if n.isDir then .ok false
    else
      let found := signature (← n.content.asOwnText)
      .ok (found == signature (← text))

/-- Compares the protected files with the tables. -/
def validate (s : Machine) : Except Fault IntegrityReport := do
  let checked ← s.protectedFiles.mapM fun f => (s.isIntact f.1 f.2).map (f.1, ·)
  let failures := (checked.filter fun c => !c.2).map fun c => .str c.1
  .ok { valid := failures.isEmpty, failures }

/-- Forbids all writing and root's privilege, and records why. -/
def enterSafeMode (r : IntegrityReport) : Act Unit := do
  modify fun s =>
    { s with safeMode := true, failures := r.failures, diagnostic := r.diagnostic.map .str }
  Act.flush

/-- Checks the protected files. A failed check is final: later ones repeat its findings. -/
def checkIntegrity : Act IntegrityReport := do
  let s ← get
  if s.alarmed then return { valid := false, failures := s.failures }
  let report ← Act.ofExcept s.validate
  if !report.valid then
    modify fun s => { s with alarmed := true }
    enterSafeMode report
    for path in report.failures do
      Act.log .error "integrity" ("signature mismatch: " ++ path.plain)
  pure report

end Machine

end SimUnix
