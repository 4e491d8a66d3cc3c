import Sortition.Scenario.Cursor
import Sortition.Value
import Sortition.Draw
import Sortition.Erase.Unlink
import Sortition.Sequence
import Sortition.Container.Deque
import Sortition.Container.Sorted
import Sortition.Container.Unordered
import Sortition.Dealer
import Sortition.Engine.ChaCha
import Sortition.Keyed.Building
import Sortition.Scenario.Multimap
import Sortition.Scenario.Lookup
import Sortition.Session.Run
import Sortition.Proofs.Erasing
import Sortition.Proofs.Requests
import Sortition.Proofs.Trimming
import Sortition.Proofs.Uniformity
import Sortition.Proofs.Histories
import Sortition.Proofs.Inquiries
import Sortition.Proofs.Following
import Sortition.Proofs.Dealing
import Sortition.Proofs.Multimaps
import Sortition.Proofs.Filtering
import Sortition.Proofs.Unordered
import Sortition.Proofs.Writing
import Sortition.Proofs.Nesting
import Sortition.Proofs.Overdrawing
import Sortition.Proofs.Compacting
import Sortition.Proofs.Picking
import Sortition.Proofs.Engines
import Sortition.Proofs.Lookups
import Sortition.Proofs.Pouring
import Sortition.Proofs.Shuffling
import Sortition.Proofs.Rounding
import Sortition.Proofs.Magnitudes
import Sortition.Proofs.Weights
