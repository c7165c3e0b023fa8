import Cpos.Finality
import Cpos.Binding
import Cpos.OrderIndependence
import Cpos.Counting
import Cpos.RejectedFork
import Cpos.Convergence
import Cpos.ConfirmationOrder
import Cpos.RoundUpdate
import Cpos.Evidence
import Cpos.Waiting
import Cpos.Tolerance
import Cpos.LateParents
import Cpos.Forwarding
import Cpos.Conservation
import Cpos.Gathering
import Cpos.Serving
import Cpos.Failures
import Cpos.Siblings
import Cpos.Improvement
import Cpos.Confirmations
import Cpos.Averages
import Cpos.Broadcasts
import Cpos.Sweeps
import Cpos.Selection
import Cpos.MockBlocks
import Cpos.RepeatedRoots
import Cpos.Agreement
import Cpos.Unfailing
import Cpos.Deadlock
import Cpos.Counters
import Cpos.Statistics
