import Reconcile.AckMatrix
import Reconcile.AckResend
import Reconcile.Attach
import Reconcile.Auth.Key
import Reconcile.Boundary.Datagram
import Reconcile.BulkAdmission.Backoff
import Reconcile.BulkDump
import Reconcile.ChangeCount
import Reconcile.Coalesce
import Reconcile.Coherence
import Reconcile.CrashSafety
import Reconcile.Damage
import Reconcile.Discovery
import Reconcile.Egress.Slots
import Reconcile.Endpoints
import Reconcile.Expiry
import Reconcile.Fleet.Convergence
import Reconcile.FramedSend.ControlBatch
import Reconcile.Framing.Adequacy
import Reconcile.Framing.BookAccounting
import Reconcile.Framing.Codec
import Reconcile.Framing.Polling
import Reconcile.Framing.Provenance
import Reconcile.Framing.Refusal
import Reconcile.Framing.Selective
import Reconcile.LastWriteWins
import Reconcile.RangeStash
import Reconcile.RecoveryBound
import Reconcile.Replay.Capacity
import Reconcile.Replay.Exactness
import Reconcile.Replay.Sender
import Reconcile.Restart
import Reconcile.Rounds
import Reconcile.Routes.Capacity
import Reconcile.SignedNode.Sendable
