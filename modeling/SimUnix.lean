import SimUnix.Console.Transcript
import SimUnix.Main
import SimUnix.Proofs.Machine.Secure
import SimUnix.Proofs.Terminal.TableFiles
import SimUnix.Proofs.Machine.Regenerated
import SimUnix.Proofs.Machine.Session
import SimUnix.Proofs.Machine.Refine
import SimUnix.Proofs.Shell.RoundTrip
import SimUnix.Proofs.Terminal.Authority
import SimUnix.Proofs.Terminal.Relocation
import SimUnix.Proofs.Terminal.Discreet
import SimUnix.Proofs.Terminal.Life
import SimUnix.Proofs.Terminal.Removal
import SimUnix.Proofs.Terminal.Resetting
import SimUnix.Proofs.Tree.Place
import SimUnix.Terminal.Completion
import SimUnix.Tree.Handles
import SimUnix.Web.Host
import SimUnix.Proofs.Time.Stamp
import SimUnix.Proofs.Shell.Tokens
import SimUnix.Proofs.Shell.Redirection
import SimUnix.Proofs.Terminal.Closing
import SimUnix.Proofs.Terminal.Pasting
import SimUnix.Proofs.Shell.Sequence
import SimUnix.Proofs.Shell.Piping
import SimUnix.Proofs.Shell.Appending
import SimUnix.Proofs.Terminal.Completing
import SimUnix.Proofs.Terminal.Expecting
import SimUnix.Proofs.Console.Ending
import SimUnix.Proofs.Terminal.Audit
import SimUnix.Proofs.Terminal.Launching
import SimUnix.Proofs.Prompt
import SimUnix.Proofs.Permission.Mode
import SimUnix.Proofs.Terminal.Resolving
import SimUnix.Proofs.Web.Bodies
import SimUnix.Proofs.Shell.Wildcards
import SimUnix.Proofs.Terminal.Bounded
import SimUnix.Proofs.Terminal.Recall
import SimUnix.Proofs.Terminal.Tracking
import SimUnix.Proofs.Terminal.Gathering
