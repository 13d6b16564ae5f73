import PegMachine.Main
import PegMachine.Proofs.Termination
import PegMachine.Proofs.Failing
import PegMachine.Proofs.Compiling
import PegMachine.Proofs.Tracing
import PegMachine.Proofs.AnyCase
import PegMachine.Proofs.Machine.Bounds
import PegMachine.Proofs.Machine.Displacement
import PegMachine.Proofs.Machine.Aiming
import PegMachine.Proofs.Meaning.Announcing
import PegMachine.Proofs.Dialect.Documents
import PegMachine.Proofs.Dialect.Arithmetic
import PegMachine.Proofs.Quoting
import PegMachine.Proofs.Integers
import PegMachine.Proofs.Comments
import PegMachine.Proofs.Separating
import PegMachine.Proofs.Classes
import PegMachine.Proofs.Condensing.Again
import PegMachine.Proofs.Subroutines
import PegMachine.Proofs.Locations
import PegMachine.Proofs.Merging
import PegMachine.Proofs.Displays
import PegMachine.Proofs.Outlines
import PegMachine.Proofs.Machine.Aiming
