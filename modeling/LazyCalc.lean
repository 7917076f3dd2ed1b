import LazyCalc.Proofs.Access.Windows
import LazyCalc.Proofs.Aggregates.Agree
import LazyCalc.Proofs.Aggregates.Totals
import LazyCalc.Proofs.Broadcast.Lazy
import LazyCalc.Proofs.Broadcast.Visits
import LazyCalc.Proofs.Collections.Undisturbed
import LazyCalc.Proofs.Counts.Unpulled
import LazyCalc.Proofs.Desk.Duplicates
import LazyCalc.Proofs.Desk.Labels
import LazyCalc.Proofs.Fanout.Refinement
import LazyCalc.Proofs.Fanout.Represented
import LazyCalc.Proofs.Fanout.Warnings
import LazyCalc.Proofs.Layers.Unseen
import LazyCalc.Proofs.Limits.Builtin
import LazyCalc.Proofs.Listing.Bounded
import LazyCalc.Proofs.Listing.Counted
import LazyCalc.Proofs.Listing.Digits
import LazyCalc.Proofs.Listing.Estimate
import LazyCalc.Proofs.Listing.Odometer
import LazyCalc.Proofs.Listing.Permutations
import LazyCalc.Proofs.Operands.InStep
import LazyCalc.Proofs.Ordering.Scalars
import LazyCalc.Proofs.Partition.Parted
import LazyCalc.Session.Command
