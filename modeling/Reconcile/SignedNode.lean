import Reconcile.Framing.RecoveryBook
import Reconcile.Lib.Action
import Reconcile.Routes
import Reconcile.SignedCausal

namespace Reconcile
open Lib Lib.Action
set_option autoImplicit true

/-- The cryptography, encodings, clock arithmetic and register operations a signed node is built
on. A payload with trailing bytes does not deserialize. -/
structure SignedSuite (K V : Type) where
  primitives : Primitives
  transferId : Bytes → TransferId
  serialize : SignedMessage K V Timestamp → Bytes
  deserialize : Bytes → Option (SignedMessage K V Timestamp)
  hlc : HlcArithmetic
  rsos : Rsos Timestamp V

/-- The freshness window is in nanoseconds, the other durations in milliseconds. -/
structure SignedConfig extends SignedRoles PeerId where
  maxPeers : Nat := 256
  maxReplaySenders : Nat := 512
  freshnessWindow : Nat := 300000000000
  challengeTtl : Nat := 5000
  framing : FramingConfig := {}
  maxFramesPerTick : Nat := 8192

inductive ConstructError where
  | overlappingIdentities
  | limitsBelowAllowlist
  | boundary (err : SignedDatagramError)
  | budgetTooSmall
  | invalidLimits
  | load (err : IoError)
  | restore (err : RestoreError)

inductive NodeError where
  | replica (err : SignedError)
  | route (err : SignedRouteError)
  | frame (err : FrameError)
  | control (err : RecoveryControlError)
  | backend (err : IoError)

structure Backend (K V : Type) where
  trySaveDelta : Option (PersistenceDelta K V PeerId Timestamp) → Except IoError Bool
  save : PersistedState K V PeerId Timestamp → Except IoError Unit

structure SignedNode (K V A : Type) extends SignedCausal K V PeerId, Ingress A where
  recovery : RecoveryBook PeerId := .forIdentity
  framing : FramingConfig
  outboundCursors : HashMap PeerId (Option K) := ∅
  nextPeerIndex : Nat := 0
  maxPeerCap : Nat
  maxFramesPerTick : Nat

abbrev NodeM (K V A α : Type) : Type := EStateM NodeError (SignedNode K V A) α

namespace SignedNode

variable {K V A : Type} [LinearOrder K]

def overlaps (config : SignedConfig) (localPeer : PeerId) : Bool :=
  config.authorities.contains localPeer || config.readers.contains localPeer ||
    config.authorities.keys.any config.readers.contains

def allowlist (config : SignedConfig) : HashSet PeerId :=
  config.readers.keys.foldl (fun m peer => m.insert peer ()) config.authorities

def validLimits (config : SignedConfig) : Bool :=
  decide (config.framing.maxLogicalMessageSize < 2 ^ 32) &&
    decide (config.framing.maxFragmentsPerMessage ≠ 0) &&
    decide (1 ≤ config.maxFramesPerTick ∧ config.maxFramesPerTick ≤ 8192)

def assemble (config : SignedConfig) (boundary : Boundary) (causal : SignedCausal K V PeerId) :
    SignedNode K V A where
  toSignedCausal := causal
  routes := {
    maxPeers := saturatingAdd config.maxPeers config.readers.len
    challengeTtl := config.challengeTtl }
  boundary := boundary
  reassembler := .forIdentity config.framing.reassemblyLimits
  framing := config.framing
  maxPeerCap := config.maxPeers
  maxFramesPerTick := config.maxFramesPerTick

/-- `loaded` is what the backend's `load` returned; it is read once every other check has passed. -/
def new (E : SignedSuite K V) (config : SignedConfig) (clusterKey : ClusterKey) (signer : Fixed 32)
    (clock : HlcClock) (readings : Nat → PhysicalTime)
    (loaded : Except IoError (Option (PersistedState K V PeerId Timestamp))) :
    Except ConstructError (SignedNode K V A) :=
  if overlaps config (E.primitives.peerId signer) then .error .overlappingIdentities
  else if config.maxPeers < config.authorities.len ∨
      config.maxReplaySenders < config.authorities.len + config.readers.len then
    .error .limitsBelowAllowlist
  else
    match Boundary.new (.enabled ⟨clusterKey, []⟩) signer (allowlist config) config.freshnessWindow
      config.maxReplaySenders config.maxPeers config.framing.datagramPayloadBudget with
    | .error err => .error (.boundary err)
    | .ok boundary =>
      if boundary.payloadBudget ≤ fragmentHeaderLen ∨ boundary.payloadBudget < 65 then
        .error .budgetTooSmall
      else if !validLimits config then .error .invalidLimits
      else
        match loaded with
        | .error err => .error (.load err)
        | .ok loaded =>
          match SignedCausal.restore E.hlc config.toSignedRoles clock readings loaded with
          | .error err => .error (.restore err)
          | .ok causal => .ok (assemble config boundary causal)

def requiredFragments (s : SignedNode K V A) (logicalBytes : Nat) : Except SignedError Nat :=
  if s.framing.maxLogicalMessageSize < logicalBytes then .error .recordTooLong
  else if logicalBytes + completeHeaderLen ≤ s.boundary.payloadBudget then .ok 1
  else
    let chunk := s.boundary.payloadBudget - fragmentHeaderLen
    let count := (logicalBytes + chunk - 1) / chunk
    if s.framing.maxFragmentsPerMessage < count ∨ s.maxFramesPerTick < count then
      .error .tooManyFragments
    else .ok count

variable (E : SignedSuite K V)

def ensureEntryFits (s : SignedNode K V A) (key : K) (entry : Entry Timestamp V) :
    Except SignedError Unit :=
  (s.requiredFragments (E.serialize (.update key entry)).length).map fun _ => ()

def routedFrame (peer : PeerId) (r : Readings) (frame : Bytes) : NodeM K V A (RoutedDatagram A) := do
  let s ← get
  let sealed := s.toIngress.sealTo E.primitives peer r frame
  set { s with toIngress := sealed.2 }
  ofExcept .route sealed.1

def routedFragment (peer : PeerId) (r : Readings) (id : TransferId) (totalLen : Nat)
    (piece : Nat × Bytes) : NodeM K V A (RoutedDatagram A) := do
  let frame ← ofExcept .frame (writeFragment id totalLen piece.1 piece.2)
  routedFrame E peer r frame

def retainTransfer (peer : PeerId) (id : TransferId) (bytes : Bytes) (now : Nat)
    (s : SignedNode K V A) : SignedNode K V A :=
  if s.framing.selectiveRecovery then
    { s with recovery := (s.recovery.retain peer id bytes now s.framing).1 }
  else s

def sendEncoded (peer : PeerId) (bytes : Bytes) (r : Readings) :
    NodeM K V A (List (RoutedDatagram A)) := do
  let s ← get
  let count ← ofExcept .replica (s.requiredFragments bytes.length)
  if count = 1 then
    let datagram ← routedFrame E peer r (writeComplete bytes)
    pure [datagram]
  else
    modify (retainTransfer peer (E.transferId bytes) bytes r.now)
    (originals (s.boundary.payloadBudget - fragmentHeaderLen) bytes).mapM
      (routedFragment E peer r (E.transferId bytes) bytes.length)

def sendMessage (peer : PeerId) (message : SignedMessage K V Timestamp) (r : Readings) :
    NodeM K V A (List (RoutedDatagram A)) :=
  sendEncoded E peer (E.serialize message) r

def resendMissing (peer : PeerId) (id : TransferId) (ranges : List (Nat × Nat)) (r : Readings) :
    NodeM K V A (List (RoutedDatagram A)) := do
  let s ← get
  let kept := s.recovery.payloadForReport peer id r.now s.framing
  set { s with recovery := kept.1 }
  match kept.2 with
  | none => pure []
  | some transfer =>
    let chunk := s.boundary.payloadBudget - fragmentHeaderLen
    let pieces := ranges.flatMap fun g =>
      rangeFragments chunk transfer.payload g.1 (min (g.1 + g.2) transfer.payload.length)
    (pieces.take (max s.maxFramesPerTick 1)).mapM
      (routedFragment E peer r id transfer.payload.length)

def requestLoop (r : Readings) : List (MissingRequest PeerId) → Nat →
    NodeM K V A (List (RoutedDatagram A))
  | [], _ => pure []
  | request :: requests, sent => do
    let s ← get
    if (s.routes.route request.peer).isNone then requestLoop r requests sent
    else
      let frame ← ofExcept .control (writeMissingReport request.transferId request.ranges)
      let datagram ← routedFrame E request.peer r frame
      if s.maxFramesPerTick ≤ sent + 1 then pure [datagram]
      else
        let rest ← requestLoop r requests (sent + 1)
        pure (datagram :: rest)

def retryMissing (r : Readings) : NodeM K V A (List (RoutedDatagram A)) := do
  let s ← get
  if s.framing.selectiveRecovery then
    let maxRanges := maxMissingRangesForBudget s.boundary.payloadBudget 0
      s.framing.maxMissingRangesPerReport
    let polled := s.reassembler.pollIdleMissing r.now 2000 3000 maxRanges 16
    set { s with reassembler := polled.1 }
    requestLoop E r polled.2 0
  else pure []

/-- The first entry past the peer's cursor in key order, from the start again after the last one. -/
def nextEntry (s : SignedNode K V A) (peer : PeerId) : Option (K × Entry Timestamp V) :=
  let ordered := s.entries.toList.mergeSort fun a b => a.1 ≤ b.1
  let cursor := (s.outboundCursors.lookup peer).join
  (ordered.find? fun ke => cursor.all fun last => last < ke.1).or ordered.head?

def updateLoop (r : Readings) : List PeerId → Nat → NodeM K V A (List (RoutedDatagram A))
  | [], _ => pure []
  | peer :: peers, sent => do
    let s ← get
    match s.nextEntry peer with
    | none => pure []
    | some (key, entry) =>
      let encoded := E.serialize (.update key entry)
      let frames ← ofExcept .replica (s.requiredFragments encoded.length)
      if s.maxFramesPerTick < sent + frames then pure []
      else
        let datagrams ← sendEncoded E peer encoded r
        modify fun s => { s with outboundCursors := s.outboundCursors.insert peer (some key) }
        let rest ← updateLoop r peers (sent + datagrams.length)
        pure (datagrams ++ rest)

def expireTransfers (now : Nat) (s : SignedNode K V A) : SignedNode K V A :=
  { s with
    reassembler := (s.reassembler.expire now).1
    recovery := s.recovery.expire now s.framing }

def reconcile (r : Readings) : NodeM K V A (List (RoutedDatagram A)) := do
  modify (expireTransfers r.now)
  let outgoing ← retryMissing E r
  let s ← get
  let peers := s.routes.confirmedPeers
  if s.readOnly ∨ s.maxFramesPerTick ≤ outgoing.length ∨ peers.isEmpty ∨ s.entries.entries.isEmpty
  then pure outgoing
  else
    modify fun s => { s with nextPeerIndex := (s.nextPeerIndex + 1) % 2 ^ 64 }
    let rest ← updateLoop E r (peers.rotate (s.nextPeerIndex % peers.length)) outgoing.length
    pure (outgoing ++ rest)

def probe (endpoint : A) (r : Readings) : NodeM K V A (RoutedDatagram A) := do
  let s ← get
  let sealed := s.toIngress.sealFrame E.primitives r (writeComplete (E.serialize .hello))
  set { s with toIngress := sealed.2 }
  ofExcept (fun err => .route (.signed err)) (sealed.1.map (RoutedDatagram.mk endpoint))

def handleVerifiedMessage (peer : PeerId) (message : SignedMessage K V Timestamp) (r : Readings)
    (pt : PhysicalTime) : NodeM K V A (List (RoutedDatagram A)) := do
  let s ← get
  let handled := s.toSignedCausal.handleVerifiedMessage E.hlc E.rsos peer message pt
  set { s with toSignedCausal := handled.2 }
  match handled.1 with
  | none => pure []
  | some reply => sendMessage E peer reply r

/-- A finished transfer is acknowledged before its message is handled; if the acknowledgement
cannot be sealed the message is dropped. -/
def receiveReport (peer : PeerId) (report : ReceiveReport) (r : Readings) (pt : PhysicalTime) :
    NodeM K V A (List (RoutedDatagram A)) :=
  match report.outcome with
  | .ok (.complete payload) =>
    match E.deserialize payload with
    | none => pure []
    | some message =>
      if report.fragmentReceived then do
        let ack ← routedFrame E peer r (writeCompletionAck (E.transferId payload))
        let reply ← handleVerifiedMessage E peer message r pt
        pure (ack :: reply)
      else handleVerifiedMessage E peer message r pt
  | _ => pure []

/-- A provisioned peer is known; any other signer meets a roster that is full. -/
def peerState (s : SignedNode K V A) (peer : PeerId) : Bool × Nat :=
  if s.authorities.contains peer || s.readers.contains peer then (true, s.members.len)
  else (false, s.maxPeerCap)

variable [DecidableEq A]

def receive (source : A) (datagram : Bytes) (r : Readings) (pt : PhysicalTime) :
    NodeM K V A (List (RoutedDatagram A)) := do
  let s ← get
  let received := s.toIngress.receive E.primitives E.transferId datagram source s.peerState r
  set { s with toIngress := received.2 }
  match received.1 with
  | .error _ | .ok .ignored => pure []
  | .ok (.probing _ challenge) => pure challenge.toList
  | .ok (.reply response) => pure [response]
  | .ok (.confirmed peer) =>
    modify fun s => { s with
      recovery := s.recovery.recordCapability peer r.now s.framing s.maxPeerCap }
    pure []
  | .ok (.recovery peer (.missing id ranges)) => resendMissing E peer id ranges r
  | .ok (.recovery peer (.completeAck id)) =>
    modify fun s => { s with recovery := (s.recovery.complete peer id).1 }
    pure []
  | .ok (.framed peer report) => receiveReport E peer report r pt

omit [DecidableEq A]

def write (w : LocalWrite K V) (pt : PhysicalTime) : NodeM K V A Unit := do
  let s ← get
  let written := s.toSignedCausal.write E.hlc (s.ensureEntryFits E) w pt
  set { s with toSignedCausal := written.2 }
  ofExcept .replica written.1

def decommission (peer : PeerId) : NodeM K V A Bool := do
  let s ← get
  let retired := s.toSignedReplica.decommission peer
  set { s with
    toSignedReplica := retired.2
    routes := s.routes.decommission peer
    outboundCursors := s.outboundCursors.erase peer }
  pure retired.1

def collectIfStable (key : K) : NodeM K V A Bool := do
  let s ← get
  let collected := s.toSignedReplica.collectIfStable E.rsos key
  set { s with toSignedReplica := collected.2 }
  pure collected.1

def commitFrozen (frozen : Option (SnapshotGeneration K V PeerId Timestamp))
    (s : SignedNode K V A) : SignedNode K V A :=
  match frozen with
  | some generation => { s with generations := (s.generations.commit generation.id).2 }
  | none => s

def snapshotNow (backend : Backend K V) : NodeM K V A Unit := do
  let s ← get
  let frozen := s.generations.freeze
  set { s with generations := frozen.2 }
  let saved ← ofExcept .backend (backend.trySaveDelta (frozen.1.map (·.persistenceDelta)))
  if saved then modify (commitFrozen frozen.1)
  else
    let _ ← ofExcept .backend (backend.save s.toCausalState.toPersisted)
    modify (commitFrozen frozen.1)

end SignedNode

inductive NodeCall (K V A : Type) where
  | write (w : LocalWrite K V) (pt : PhysicalTime)
  | decommission (peer : PeerId)
  | collect (key : K)
  | receive (source : A) (datagram : Bytes) (r : Readings) (pt : PhysicalTime)
  | reconcile (r : Readings)
  | probe (endpoint : A) (r : Readings)
  | snapshotNow (backend : Backend K V)

/-- The state after a call, whatever it returns. -/
def SignedNode.step [LinearOrder K] [DecidableEq A] (E : SignedSuite K V) (s : SignedNode K V A) :
    NodeCall K V A → SignedNode K V A
  | .write w pt => after (write E w pt) s
  | .decommission peer => after (decommission peer) s
  | .collect key => after (collectIfStable E key) s
  | .receive source datagram r pt => after (receive E source datagram r pt) s
  | .reconcile r => after (reconcile E r) s
  | .probe endpoint r => after (probe E endpoint r) s
  | .snapshotNow backend => after (snapshotNow backend) s

end Reconcile
