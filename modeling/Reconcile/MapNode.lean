import Reconcile.AckResend
import Reconcile.BulkDump
import Reconcile.Coalesce
import Reconcile.FramedSend.Outgoing
import Reconcile.Inbound
import Reconcile.Membership
import Reconcile.Repair

namespace Reconcile
open Lib Replay
set_option autoImplicit true

def peerExpiration : Nat := 60000

/-- What the range-diff crate supplies for a tree: the ranges that open a round, and the answer to a
peer's ranges, which is the ranges to return and those that differ. The number is what the random
generator gives. -/
structure Comparison (K W A : Type) where
  initialRanges : HashMap K W → List A
  protocolRound : HashMap K W → List A → Nat → List A × List (EnumerationRange K)

abbrev MapMessage (K V T A : Type) : Type := Message K (Entry T V) (State V) A

structure Protocol (K V T A : Type) [LinearOrder T] where
  register : Rsos T V
  codec : MessageCodec (MapMessage K V T A)
  dated : Comparison K (Entry T V) A
  valueOnly : Comparison K (State V) A

structure SendTask (K V P T A : Type) where
  peer : P
  outgoing : Outgoing (MapMessage K V T A)
  noteRepair : Bool := false

/-- The wall clock in milliseconds, the monotonic clock, the repair interval read at that time and
what the random generator gives to the two comparisons. -/
structure Moment where
  wallMs : Nat
  now : Nat
  repairInterval : Nat
  datedDraw : Nat := 0
  valueDraw : Nat := 0

/-- What a step of a node shows: the logical payloads handed to the framed sender, the datagrams
sent, the logical payloads completed and the entries written by local calls. -/
structure NodeOutput (K V T : Type) where
  payloads : List Bytes := []
  datagrams : List Bytes := []
  completed : List Bytes := []
  writes : List (K × Entry T V) := []

structure MapNode (K V P T A : Type) where
  store : MemberReplica K V P T := {}
  replay : ReplayFilter P
  endpoint : Endpoint P
  peers : HashMap P Nat := ∅
  pendingRepairs : PendingRepairs P := ∅
  receivingBulkFrom : HashMap P Nat := ∅
  coalescer : Coalescer K V T
  dumping : P → DumpState K V T := fun _ => {}
  ackCursor : Option K := none
  tasks : List (SendTask K V P T A) := []

/-- What a node does: it receives a datagram, a task sends, a local call writes (with or without a
claim on the egress budget), and the timers and detached tasks take their steps. -/
inductive MapEvent (K V P T : Type) where
  | datagram (sender : P) (bytes : Bytes) (moment : Moment)
  | send (task : Nat) (clock : Nat → Nat) (moment : Moment)
  | call (call : LocalCall K V) (stamps : List T)
  | tryCall (call : LocalCall K V) (stamps : List T) (claimed : Bool) (now : Nat)
  | coalesce (event : CoalesceEvent K V T) (claimed : Bool) (now : Nat)
  | dump (peer : P) (event : DumpEvent K V T)
  | round (targets : List P) (now : Nat)
  | repair (now interval : Nat)
  | retryIncomplete (now : Nat)
  | expire (now : Nat)
  | seed (peer : P) (now : Nat)
  | decommission (peer : P)

def DecodedDatagram.spokeDated (d : DecodedDatagram K V A) : Bool :=
  !d.datedRanges.isEmpty || !d.datedUpdates.isEmpty || !d.tombstoneAcks.isEmpty ||
    d.sawConvergenceAck

def CoalesceEvent.queues : CoalesceEvent K V T → Bool
  | .queue _ => true
  | _ => false

def DumpEvent.starts : DumpEvent K V T → Bool
  | .start _ _ => true
  | _ => false

def DumpEvent.onTrees (trees : DumpTrees K V T) : DumpEvent K V T → DumpEvent K V T
  | .enumerate _ => .enumerate trees
  | event => event

def DumpMessage.toMessage : DumpMessage K V T → MapMessage K V T A
  | .entryUpdate key entry => .entryUpdate key entry
  | .stateUpdate key state => .stateUpdate key state

theorem mod_word_lt (n : Nat) : n % 2 ^ 64 < 2 ^ 64 := Nat.mod_lt n (by decide)

def ackMessage (ack : K × Nat) : MapMessage K V T A :=
  .tombstoneAck ack.1 ⟨ack.2 % 2 ^ 64, mod_word_lt ack.2⟩

def updateMessage (kv : K × Entry T V) : MapMessage K V T A := .entryUpdate kv.1 kv.2

namespace MapNode

variable {K V P T A : Type} [LinearOrder K] [LinearOrder P] [LinearOrder T]
variable (proto : Protocol K V T A) (ports : SendPorts)

def spawn (n : MapNode K V P T A) (tasks : List (SendTask K V P T A)) : MapNode K V P T A :=
  { n with tasks := n.tasks ++ tasks }

def getPeers (n : MapNode K V P T A) (now : Nat) : List P × MapNode K V P T A :=
  let kept := n.peers.retain fun seen => now - seen < peerExpiration
  (kept.keys, { n with peers := kept })

def trees (n : MapNode K V P T A) : DumpTrees K V T where
  map := n.store.map.toList.insertionSort fun a b => a.1 ≤ b.1
  projection := n.store.projection.toList.insertionSort fun a b => a.1 ≤ b.1

def startDump (n : MapNode K V P T A) (peer : P) (channel : DumpChannel)
    (differences : List (EnumerationRange K)) : MapNode K V P T A :=
  { n with
    dumping := Function.update n.dumping peer
      (((n.dumping peer).step (.start channel differences)).getD (n.dumping peer)) }

def handleDatedComparison (n : MapNode K V P T A) (ranges : List A) (peer : P) (draw : Nat) :
    MapNode K V P T A :=
  if ranges.isEmpty then n
  else
    let answer := proto.dated.protocolRound n.store.map ranges draw
    let n := if answer.1.isEmpty then n
      else n.spawn [⟨peer, .control (answer.1.map .entryFingerprint), false⟩]
    let n := if answer.2.isEmpty then n else n.startDump peer .dated answer.2
    if answer.1.isEmpty && answer.2.isEmpty then
      n.spawn [⟨peer, .messages [.convergenceAck], false⟩]
    else n

/-- The hooks run between the two phases; a write they let in is a call of its own. -/
def applyDatedUpdates (n : MapNode K V P T A) (updates : List (K × Entry T V)) (peer : P)
    (moment : Moment) : MapNode K V P T A :=
  if updates.isEmpty then n
  else
    let filtered := filterDatedUpdates proto.register n.store.map updates
    let merged := if filtered.1.isEmpty then (n.store.toReplica, [])
      else n.store.toReplica.mergeDatedUpdates proto.register filtered.1
    let acks := filtered.2 ++ merged.2
    let n := { n with
      pendingRepairs := n.pendingRepairs.notePendingRepair peer moment.now moment.repairInterval
      receivingBulkFrom := n.receivingBulkFrom.insert peer moment.now
      store := { n.store with toReplica := merged.1 } }
    if acks.isEmpty then n else n.spawn [⟨peer, .messages (acks.map ackMessage), false⟩]

def handleValueComparison (n : MapNode K V P T A) (ranges : List A) (peer : P) (draw : Nat) :
    MapNode K V P T A :=
  if ranges.isEmpty then n
  else
    let answer := proto.valueOnly.protocolRound n.store.projection ranges draw
    let n := if answer.1.isEmpty then n
      else n.spawn [⟨peer, .control (answer.1.map .stateFingerprint), false⟩]
    if answer.2.isEmpty then n else n.startDump peer .valueOnly answer.2

def recordCapability (n : MapNode K V P T A) (peer : P) (now : Nat) : MapNode K V P T A :=
  { n with
    endpoint := { n.endpoint with
      recovery := n.endpoint.recovery.recordCapability peer now ports.framing ports.maxPeers } }

/-- The batch is handled in a fixed order, whatever the order of its messages. -/
def handleBatch (n : MapNode K V P T A) (batch : DecodedDatagram K (Entry T V) A) (peer : P)
    (moment : Moment) : MapNode K V P T A :=
  let n := if batch.selectiveRecoveryCapability then n.recordCapability ports peer moment.now else n
  let n := { n with
    store := n.store.recordTombstoneAcks peer
      (batch.tombstoneAcks.map fun a : K × Fin (2 ^ 64) => (a.1, a.2.val)) }
  let n := n.handleDatedComparison proto batch.datedRanges peer moment.datedDraw
  let n := n.applyDatedUpdates proto batch.datedUpdates peer moment
  n.handleValueComparison proto batch.valueRanges peer moment.valueDraw

def handleMessages (n : MapNode K V P T A) (payload : Bytes) (peer : P) (moment : Moment) :
    MapNode K V P T A × Bool :=
  match decodeDatagram proto.codec payload with
  | none => (n, false)
  | some batch => (n.handleBatch proto ports batch peer moment, batch.spokeDated)

/-- A logical payload ends the wait for the peer's reply; a peer that spoke the dated channel becomes
a member. -/
def complete (n : MapNode K V P T A) (payload : Bytes) (sender : P) (moment : Moment) :
    MapNode K V P T A :=
  let n := { n with pendingRepairs := n.pendingRepairs.erase sender }
  let handled := n.handleMessages proto ports payload sender moment
  if handled.2 then
    { handled.1 with
      peers := handled.1.peers.insert sender moment.now
      store := handled.1.store.join sender }
  else handled.1

def admitted (n : MapNode K V P T A) (sender : P) (bytes : Bytes) (moment : Moment) :
    ReplayFilter P × Except InboundRejection Payload :=
  admitInbound ports.primitives ports.authenticator n.replay ⟨ports.maxPeers⟩ sender bytes
    (n.store.members.contains sender) n.store.members.len moment.wallMs

def framed (n : MapNode K V P T A) (replay : ReplayFilter P) (sender : P) (frame : Bytes)
    (moment : Moment) : MapNode K V P T A × List Bytes :=
  let received := ports.receiveFrame n.endpoint sender frame moment.now
  let sent := ports.sendFrames received.1.counter received.2.2
  ({ n with replay := replay, endpoint := { received.1 with counter := sent.1 } }, sent.2)

def receive (n : MapNode K V P T A) (sender : P) (bytes : Bytes) (moment : Moment) :
    MapNode K V P T A × NodeOutput K V T :=
  if bufferSize < bytes.length then (n, {})
  else
    let admitted := n.admitted ports sender bytes moment
    match admitted.2 with
    | .error _ => ({ n with replay := admitted.1 }, {})
    | .ok payload =>
      let framed := n.framed ports admitted.1 sender payload.bytes moment
      match (ports.receiveFrame n.endpoint sender payload.bytes moment.now).2.1 with
      | none => (framed.1, { datagrams := framed.2 })
      | some logical =>
        (framed.1.complete proto ports logical sender moment,
          { datagrams := framed.2, completed := [logical] })

def initialRanges (n : MapNode K V P T A) : Bytes :=
  appendCapability proto.codec ports.framing
    (proto.codec.encodeAll ((proto.dated.initialRanges n.store.map).map .entryFingerprint))

def startReconciliation (n : MapNode K V P T A) (targets : List P) (now : Nat) :
    MapNode K V P T A :=
  let resent := resendHeldTombstoneAcks proto.codec.encode proto.register n.ackCursor
    ⟨n.store.liveTombstones, n.store.map, n.initialRanges proto ports⟩
  let n := { (n.getPeers now).2 with ackCursor := resent.2 }
  n.spawn (targets.map fun peer => ⟨peer, .encoded resent.1.buf, true⟩)

def retryDueRepairs (n : MapNode K V P T A) (now interval : Nat) : MapNode K V P T A :=
  let due := n.pendingRepairs.retryDueRepairs now interval
  { n with pendingRepairs := due.2 }.spawn
    (due.1.map fun peer => ⟨peer, .encoded (n.initialRanges proto ports), false⟩)

/-- The detached task sends to every peer known when it is spawned. -/
def spawnBroadcast (n : MapNode K V P T A) (keyValues : List (K × Entry T V)) (now : Nat) :
    MapNode K V P T A :=
  (n.getPeers now).2.spawn
    ((n.getPeers now).1.map fun peer => ⟨peer, .messages (keyValues.map updateMessage), true⟩)

def broadcast (n : MapNode K V P T A) (claimed : Bool) (now : Nat)
    (keyValues : List (K × Entry T V)) : MapNode K V P T A :=
  if claimed then n.spawnBroadcast keyValues now else n

def runTask (n : MapNode K V P T A) (task : SendTask K V P T A) (clock : Nat → Nat)
    (moment : Moment) : Except FrameError (MapNode K V P T A × NodeOutput K V T) := do
  let out ← ports.handOut proto.codec n.endpoint.recovery task.peer clock task.outgoing
  let sent := ports.sendFrames n.endpoint.counter out.frames
  return ({ n with
      endpoint := { n.endpoint with recovery := out.recovery, counter := sent.1 }
      pendingRepairs := if task.noteRepair then
          n.pendingRepairs.notePendingRepair task.peer moment.now moment.repairInterval
        else n.pendingRepairs },
    { payloads := out.payloads, datagrams := sent.2 })

def stepCoalescer (n : MapNode K V P T A) (event : CoalesceEvent K V T) (claimed : Bool)
    (now : Nat) : Option (MapNode K V P T A) := do
  let coalescer ← n.coalescer.step proto.register.toMerge event
  return (coalescer.broadcasts.drop n.coalescer.broadcasts.length).foldl
    (broadcast · claimed now) { n with coalescer := coalescer }

def stepDump (n : MapNode K V P T A) (peer : P) (event : DumpEvent K V T) :
    Option (MapNode K V P T A) := do
  let state ← (n.dumping peer).step event
  let updates := state.sent.drop (n.dumping peer).sent.length
  return { n with dumping := Function.update n.dumping peer state }.spawn
    (if updates.isEmpty then [] else [⟨peer, .messages (updates.map DumpMessage.toMessage), false⟩])

/-- An `Option` is for what cannot happen: a task that is not there, or a failed `expect`. -/
def step (n : MapNode K V P T A) :
    MapEvent K V P T → Option (MapNode K V P T A × NodeOutput K V T)
  | .datagram sender bytes moment => some (n.receive proto ports sender bytes moment)
  | .send i clock moment => do
    let task ← n.tasks[i]?
    ({ n with tasks := n.tasks.eraseIdx i }.runTask proto ports task clock moment).toOption
  | .call call stamps => do
    let writes := call.writes n.store.toReplica stamps
    let coalescer ← n.coalescer.step proto.register.toMerge (.queue writes)
    return ({ n with
        store := { n.store with toReplica := call.store n.store.toReplica stamps }
        coalescer := coalescer }, { writes := writes })
  | .tryCall call stamps claimed now =>
    if claimed then
      let writes := call.writes n.store.toReplica stamps
      let n := { n with
        store := { n.store with toReplica := call.store n.store.toReplica stamps } }
      some (if writes.isEmpty then n else n.spawnBroadcast writes now, { writes := writes })
    else some (n, {})
  | .coalesce event claimed now =>
    -- Only a local call queues, and only a comparison starts a dump.
    if event.queues then none
    else (n.stepCoalescer proto event claimed now).map fun n => (n, {})
  | .dump peer event =>
    if event.starts then none
    else (n.stepDump peer (event.onTrees n.trees)).map fun n => (n, {})
  | .round targets now => some (n.startReconciliation proto ports targets now, {})
  | .repair now interval => some (n.retryDueRepairs proto ports now interval, {})
  | .retryIncomplete now =>
    let retried := ports.retryIdleIncomplete n.endpoint now
    let sent := ports.sendFrames retried.1.counter retried.2
    some ({ n with endpoint := { retried.1 with counter := sent.1 } }, { datagrams := sent.2 })
  | .expire now =>
    some ({ n with
      endpoint := { n.endpoint with
        recovery := n.endpoint.recovery.expire now ports.framing
        reassembler := (n.endpoint.reassembler.expire now).1 } }, {})
  | .seed peer now => some ({ n with peers := n.peers.insert peer now }, {})
  | .decommission peer =>
    some ({ n with
      store := n.store.decommissionPeer peer
      peers := n.peers.erase peer }, {})

end MapNode

end Reconcile
