import EntityStore.Files.Folder
import EntityStore.Hook.Script
import EntityStore.Identity
import EntityStore.Index.Lemmas
import EntityStore.Main
import EntityStore.OrderedMap.Lemmas
import EntityStore.Proofs.Backend.Receiving
import EntityStore.Proofs.Entity.RoundTrip
import EntityStore.Proofs.Feed.Delivery
import EntityStore.Proofs.Hook.Script
import EntityStore.Proofs.Index.Queries
import EntityStore.Proofs.Repair.Deletion
import EntityStore.Proofs.Repair.Trimming
import EntityStore.Proofs.Session.AllOrNothing
import EntityStore.Proofs.Session.Bookkeeping
import EntityStore.Proofs.Session.Callbacks
import EntityStore.Proofs.Session.Chronicle
import EntityStore.Proofs.Session.Convergence
import EntityStore.Proofs.Session.Coverage
import EntityStore.Proofs.Session.Deltas
import EntityStore.Proofs.Session.Finality
import EntityStore.Proofs.Session.Overlay
import EntityStore.Proofs.Session.Publication
import EntityStore.Proofs.Session.Quiescence
import EntityStore.Proofs.Session.References
import EntityStore.Proofs.Session.Replica
import EntityStore.Proofs.Session.Restraint
import EntityStore.Proofs.Session.Retention
import EntityStore.Proofs.Session.Retrying
import EntityStore.Proofs.Session.Tally
import EntityStore.Proofs.Session.WorkingSet
import EntityStore.Proofs.Session.WriteThrough
import EntityStore.Proofs.Snapshot.Assignment
import EntityStore.Proofs.Snapshot.Difference
import EntityStore.Proofs.Snapshot.Inspection
import EntityStore.Proofs.Snapshot.Reloading
import EntityStore.Proofs.Transaction.Budget
import EntityStore.Proofs.Transaction.Referrers
import EntityStore.Proofs.Transaction.Signature
import EntityStore.Scenario
import EntityStore.Session.Basic
