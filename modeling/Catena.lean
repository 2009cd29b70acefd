import Catena.Host.Sandbox
import Catena.Main
import Catena.Proofs.Signature
import Catena.Proofs.Effect
import Catena.Proofs.Runs
import Catena.Proofs.Steps
import Catena.Proofs.Faults
import Catena.Proofs.Occurrence
import Catena.Proofs.Halting
import Catena.Proofs.Transaction
import Catena.Proofs.Budget
import Catena.Proofs.Simulation
import Catena.Proofs.Limits
import Catena.Proofs.Composition
import Catena.Proofs.CoreNames
import Catena.Proofs.Frame
import Catena.Proofs.Printing
import Catena.Proofs.Names
import Catena.Proofs.Forgetting
import Catena.Proofs.Join
import Catena.Proofs.Diagnosis
import Catena.Proofs.Brackets
import Catena.Proofs.Locality
import Catena.Proofs.Matching
import Catena.Proofs.Substitution
import Catena.Proofs.Application
import Catena.Proofs.Renaming
import Catena.Proofs.Shuffling
import Catena.Proofs.Window
import Catena.Proofs.TypeText
import Catena.Proofs.Listing
import Catena.Proofs.Arithmetic
import Catena.Proofs.Shell
import Catena.Proofs.Quoting
