import LispMachine.Main
import LispMachine.Sample
import LispMachine.Proofs.Refinement.Capacity
import LispMachine.Proofs.Layout.Runs
import LispMachine.Proofs.Control.Markers
import LispMachine.Proofs.Control.Stepping
import LispMachine.Proofs.Control.Blame
import LispMachine.Proofs.Assembly.Fetching
import LispMachine.Proofs.Assembly.Finishing
import LispMachine.Proofs.Assembly.Listing
import LispMachine.Proofs.Text.EditDistance
import LispMachine.Proofs.Reentry.Discipline
import LispMachine.Proofs.Safety.Runs
import LispMachine.Proofs.Arrangement.Rounds
import LispMachine.Proofs.Programs.Samples
import LispMachine.Proofs.Reentry.Operands
import LispMachine.Proofs.Text.Suggestions
import LispMachine.Proofs.Heap.Lists
import LispMachine.Proofs.Procedure.Arithmetic
