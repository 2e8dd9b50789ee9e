import Scriptlet.Main
import Scriptlet.Proofs.Acceptance
import Scriptlet.Proofs.Balance
import Scriptlet.Proofs.Boundaries
import Scriptlet.Proofs.Declarations
import Scriptlet.Proofs.ErrorTokens
import Scriptlet.Proofs.ForLoops
import Scriptlet.Proofs.Forest
import Scriptlet.Proofs.FullSink
import Scriptlet.Proofs.Identities
import Scriptlet.Proofs.Lines
import Scriptlet.Proofs.Objects
import Scriptlet.Proofs.Positions
import Scriptlet.Proofs.RenamingRun
import Scriptlet.Proofs.Respacing
import Scriptlet.Proofs.Returns
import Scriptlet.Proofs.Termination
import Scriptlet.Proofs.Unused
