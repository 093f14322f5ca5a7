import MachineLiveness.Draft.Cut
import MachineLiveness.Draft.Edges
import MachineLiveness.Draft.WellFormed
import MachineLiveness.IndexSet.Listed
import MachineLiveness.Json.Form
import MachineLiveness.Liveness.Equations
import MachineLiveness.Liveness.Event
import MachineLiveness.Liveness.Paths
import MachineLiveness.Propagation.Plain
import MachineLiveness.Propagation.Schedule
import MachineLiveness.Retreat
import MachineLiveness.Proofs.Finish
import MachineLiveness.Proofs.Universe
import MachineLiveness.Proofs.Equations
import MachineLiveness.Proofs.IndexSet
import MachineLiveness.Proofs.Cursor
import MachineLiveness.Proofs.Visit
import MachineLiveness.Proofs.Invariant
import MachineLiveness.Proofs.Run
import MachineLiveness.Proofs.Sweep
import MachineLiveness.Proofs.Fixpoint
import MachineLiveness.Proofs.Schedule
import MachineLiveness.Proofs.Paths
import MachineLiveness.History
import MachineLiveness.Proofs.Listed
import MachineLiveness.Proofs.Blame
import MachineLiveness.Proofs.Refusal
import MachineLiveness.Proofs.Plain
import MachineLiveness.Proofs.Bounds
import MachineLiveness.Proofs.Follow
import MachineLiveness.Proofs.Layout
import MachineLiveness.Proofs.Monotone
import MachineLiveness.Proofs.Cut
import MachineLiveness.Proofs.Seam
import MachineLiveness.Proofs.RoundTrip
import MachineLiveness.Proofs.Legible
import MachineLiveness.Proofs.Dump
import MachineLiveness.Proofs.Record
import MachineLiveness.Proofs.Edges
import MachineLiveness.Proofs.Reached
import MachineLiveness.Proofs.Circulation
import MachineLiveness.Proofs.Retreat
import MachineLiveness.Proofs.Accounts
import MachineLiveness.Proofs.Numbering
import MachineLiveness.Proofs.Order
import MachineLiveness.Proofs.Gaps
import MachineLiveness.Proofs.TailOrder
