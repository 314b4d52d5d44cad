import Crdt.Clock.Lives
import Crdt.Text.SnapshotDelta
import Crdt.ListRga.SameAsText
import Crdt.Text.UndoSession
import Crdt.OrSet.SameElements
import Crdt.Lww.MapConverge
import Crdt.Lww.Set
import Crdt.Register.Causal
import Crdt.Register.Semilattice
import Crdt.Gc.FailClosed
import Crdt.History.Repository
import Crdt.Tree.Converge
import Crdt.Tree.Cycles
import Crdt.Wire.RoundTrip
import Crdt.Text.PackedState
import Crdt.Replica.Delivery
import Crdt.Membership.View
import Crdt.Membership.Wire
import Crdt.Clock.Room
import Crdt.Membership.Manager
import Crdt.RichText.Document
import Crdt.RichText.Editor
import Crdt.RichText.Reach
import Crdt.RichText.Atomic
import Crdt.Counter.Canonical
import Crdt.Awareness.Store
import Crdt.Browser.Flush
import Crdt.Text.Local
import Crdt.Merkle.Tree
import Crdt.Durable.Group
import Crdt.Delta.Batch
import Crdt.Extensions.YjsAwareness
