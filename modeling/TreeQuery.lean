import TreeQuery.Course.Matching
import TreeQuery.Pattern.Equality
import TreeQuery.Script.Basic
import TreeQuery.Session
import TreeQuery.Proofs.Course.Order
import TreeQuery.Proofs.Course.Reading
import TreeQuery.Proofs.Course.Depth
import TreeQuery.Proofs.Course.Closed
import TreeQuery.Proofs.Enumerator.Course
import TreeQuery.Proofs.Enumerator.Run
import TreeQuery.Proofs.Enumerator.Step
import TreeQuery.Proofs.Enumerator.Simulation
import TreeQuery.Proofs.Enumerator.Adequacy
import TreeQuery.Proofs.Enumerator.Config
import TreeQuery.Proofs.Enumerator.Echo
import TreeQuery.Proofs.Enumerator.Strictness
import TreeQuery.Proofs.Enumerator.Reset
import TreeQuery.Proofs.Pattern.Founded
import TreeQuery.Proofs.Enumerator.Termination
import TreeQuery.Proofs.Enumerator.Captures
import TreeQuery.Proofs.Enumerator.Onward
import TreeQuery.Proofs.Enumerator.Delivery
import TreeQuery.Proofs.Enumerator.Framing
import TreeQuery.Proofs.Enumerator.Snapshots
import TreeQuery.Proofs.Course.Related
import TreeQuery.Proofs.Enumerator.Agreement
import TreeQuery.Proofs.Pattern.Marks
import TreeQuery.Proofs.Course.Within
import TreeQuery.Proofs.Pattern.Variation
import TreeQuery.Proofs.Pattern.Context
import TreeQuery.Proofs.Pattern.Laws
import TreeQuery.Proofs.Datum.Nodes
import TreeQuery.Proofs.Course.Items
import TreeQuery.Proofs.Env.Maps
import TreeQuery.Proofs.Datum.Windows
import TreeQuery.Proofs.Pattern.Captures
import TreeQuery.Proofs.Enumerator.Sound
import TreeQuery.Proofs.Enumerator.Rests
import TreeQuery.Proofs.Enumerator.Logging
import TreeQuery.Proofs.Enumerator.Accounting
import TreeQuery.Proofs.Course.Output
import TreeQuery.Proofs.Course.Settled
import TreeQuery.Proofs.Enumerator.Taking
import TreeQuery.Proofs.Search.Adequacy
import TreeQuery.Proofs.Search.Nodes
import TreeQuery.Proofs.Search.Anywhere
import TreeQuery.Proofs.Pattern.Markless
import TreeQuery.Proofs.Pattern.Grouping
import TreeQuery.Proofs.Datum.Places
import TreeQuery.Proofs.Pattern.Selection
import TreeQuery.Proofs.Pattern.Windows
import TreeQuery.Proofs.Pattern.Substitution
import TreeQuery.Proofs.Pattern.Recall
import TreeQuery.Proofs.Datum.Preorder
import TreeQuery.Proofs.Env.Views
import TreeQuery.Proofs.Pattern.Equality
import TreeQuery.Proofs.Pattern.Quoting
import TreeQuery.Proofs.Pattern.Layout
import TreeQuery.Proofs.Pattern.Readable
