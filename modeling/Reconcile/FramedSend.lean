import Reconcile.Auth
import Reconcile.Framing.RecoveryBook
import Reconcile.Framing.Validation
import Reconcile.Replay.Sender

namespace Reconcile
open Lib Replay
set_option autoImplicit true

inductive FrameEvent where
  | logical (payload : Bytes) (completedTransfer : Option TransferId)
  | requestMissing (transferId : TransferId) (ranges : List (Nat × Nat))
  | missing (transferId : TransferId) (ranges : List (Nat × Nat))
  | completeAck (transferId : TransferId)
  | pending

namespace Reassembler

variable {P : Type} [LinearOrder P]

/-- The fragment that ends a message asks for what is missing before it, at most every three
seconds. -/
def pendingFragmentEvent (r : Reassembler P) (peer : P) (fragment : Option FragmentMetadata)
    (now maxMissingRanges : Nat) : Reassembler P × FrameEvent :=
  match fragment.filter FragmentMetadata.isTerminal with
  | none => (r, .pending)
  | some metadata =>
    let due := r.missingRangesIfDue peer metadata.transferId now 3000 maxMissingRanges
    if due.2 = [] then (due.1, .pending)
    else (due.1, .requestMissing metadata.transferId due.2)

def acceptFrame (hash : Bytes → TransferId) (r : Reassembler P) (peer : P) (bytes : Bytes)
    (maxMissingRanges now : Nat) : Reassembler P × FrameEvent :=
  match parseRecoveryControl bytes maxMissingRanges with
  | .error _ => (r, .pending)
  | .ok (some (.missing id ranges)) => (r, .missing id ranges)
  | .ok (some (.completeAck id)) => (r, .completeAck id)
  | .ok none =>
    let accepted := r.accept hash peer bytes now
    match accepted.2.outcome with
    | .ok (.complete payload) =>
      (accepted.1, .logical payload ((fragmentMetadata bytes).map FragmentMetadata.transferId))
    | .ok .pending | .ok .duplicate =>
      accepted.1.pendingFragmentEvent peer (fragmentMetadata bytes) now maxMissingRanges
    | .error _ => (accepted.1, .pending)

end Reassembler

/-- What every framed send needs. `takes` says which frames the transport takes, `nowMs` and `nonce`
are the clock and the nonce read for each sequence number. -/
structure SendPorts where
  primitives : Primitives
  hash : Bytes → TransferId
  authenticator : Authenticator
  framing : FramingConfig
  maxPeers : Nat
  takes : Bytes → Bool
  nowMs : Nat → Nat
  nonce : Nat → Fixed 24

structure Endpoint (P : Type) where
  recovery : RecoveryBook P
  reassembler : Reassembler P
  counter : SenderCounter

namespace SendPorts

variable {P : Type} [LinearOrder P] (ports : SendPorts)

def overhead : Nat := ports.authenticator.overhead

def maxMissingRanges : Nat :=
  maxMissingRangesForBudget ports.framing.datagramPayloadBudget ports.overhead
    ports.framing.maxMissingRangesPerReport

def sendFrameToRetry (counter : SenderCounter) (frame : Bytes) : SenderCounter × Bytes :=
  let seq := counter.nextSeq
  let stamp := seq.2.nextStampAt (ports.nowMs seq.1)
  (stamp.2, ports.authenticator.seal ports.primitives seq.1 stamp.1 (ports.nonce seq.1) frame)

def sendFrames : SenderCounter → List Bytes → SenderCounter × List Bytes
  | counter, [] => (counter, [])
  | counter, frame :: frames =>
    let sent := ports.sendFrameToRetry counter frame
    let rest := sendFrames sent.1 frames
    (rest.1, sent.2 :: rest.2)

/-- The frames of one logical payload. A payload in fragments is kept for a capable peer, and not
sent again while the peer can still ask for what it lacks. -/
def sendLogicalPayload (b : RecoveryBook P) (peer : P) (payload : Bytes) (now : Nat) :
    RecoveryBook P × Except FrameError (List Bytes) :=
  match capacities ports.overhead ports.framing with
  | none => (b, .ok [])
  | some (completeCapacity, fragmentCapacity) =>
    if ports.framing.maxLogicalMessageSize < payload.length then (b, .ok [])
    else if payload.length ≤ completeCapacity then (b, .ok [writeComplete payload])
    else if fragmentCapacity = 0 then (b, .ok [])
    else if ports.framing.maxFragmentsPerMessage < Pieces.chunkCount fragmentCapacity payload then
      (b, .ok [])
    else
      let frames := writeFragments (ports.hash payload) payload.length
        (originals fragmentCapacity payload)
      let support := b.supports peer now ports.framing
      if support.2 then
        let kept := support.1.retain peer (ports.hash payload) payload now ports.framing
        if !kept.2.retained then (kept.1, frames)
        else if kept.2.skipFullSend then (kept.1, .ok [])
        else (kept.1, frames)
      else (support.1, frames)

def sendReport (b : RecoveryBook P) (peer : P) (id : TransferId) (ranges : List (Nat × Nat))
    (now : Nat) : RecoveryBook P × List Bytes :=
  let support := b.supports peer now ports.framing
  if support.2 then
    match writeMissingReport id ranges with
    | .ok frame => (support.1, [frame])
    | .error _ => (support.1, [])
  else (support.1, [])

def sendReports (now : Nat) : List (MissingRequest P) → RecoveryBook P → RecoveryBook P × List Bytes
  | [], b => (b, [])
  | request :: requests, b =>
    let sent := ports.sendReport b request.peer request.transferId request.ranges now
    let rest := sendReports now requests sent.1
    (rest.1, sent.2 ++ rest.2)

def retryIdleIncomplete (e : Endpoint P) (now : Nat) : Endpoint P × List Bytes :=
  if !ports.framing.selectiveRecovery then (e, [])
  else
    let polled := (e.reassembler.expire now).1.pollIdleMissing now 1000 3000 ports.maxMissingRanges
      32
    let sent := ports.sendReports now polled.2 e.recovery
    ({ e with recovery := sent.1, reassembler := polled.1 }, sent.2)

/-- The receive loop up to the logical payload: a completed transfer is acknowledged, requests are
made and answered. -/
def receiveFrame (e : Endpoint P) (peer : P) (bytes : Bytes) (now : Nat) :
    Endpoint P × Option Bytes × List Bytes :=
  let accepted := e.reassembler.acceptFrame ports.hash peer bytes ports.maxMissingRanges now
  let e := { e with reassembler := accepted.1 }
  match accepted.2 with
  | .logical payload none => (e, some payload, [])
  | .logical payload (some id) =>
    let support := e.recovery.supports peer now ports.framing
    ({ e with recovery := support.1 }, some payload,
      if support.2 then [writeCompletionAck id] else [])
  | .requestMissing id ranges =>
    let sent := ports.sendReport e.recovery peer id ranges now
    ({ e with recovery := sent.1 }, none, sent.2)
  | .missing id ranges =>
    let sent := retransmitMissingTo ports.framing ports.overhead ports.takes e.recovery peer id
      ranges now
    ({ e with recovery := sent.1 }, none, sent.2.1)
  | .completeAck id => ({ e with recovery := (e.recovery.complete peer id).1 }, none, [])
  | .pending => (e, none, [])

end SendPorts

inductive EndpointCall (P : Type) where
  | send (peer : P) (payload : Bytes) (now : Nat)
  | receive (peer : P) (frame : Bytes) (now : Nat)
  | retryIdle (now : Nat)
  | recordCapability (peer : P) (now : Nat)
  | expireRecovery (now : Nat)

namespace SendPorts

variable {P : Type} [LinearOrder P] (ports : SendPorts)

/-- The frames of one call, before they are sealed. An error stands for a failed `expect`. -/
def frames (e : Endpoint P) : EndpointCall P → Endpoint P × Except FrameError (List Bytes)
  | .send peer payload now =>
    let sent := ports.sendLogicalPayload e.recovery peer payload now
    ({ e with recovery := sent.1 }, sent.2)
  | .receive peer frame now =>
    let received := ports.receiveFrame e peer frame now
    (received.1, .ok received.2.2)
  | .retryIdle now =>
    let retried := ports.retryIdleIncomplete e now
    (retried.1, .ok retried.2)
  | .recordCapability peer now =>
    ({ e with
      recovery := e.recovery.recordCapability peer now ports.framing ports.maxPeers }, .ok [])
  | .expireRecovery now => ({ e with recovery := e.recovery.expire now ports.framing }, .ok [])

def step (e : Endpoint P) (call : EndpointCall P) : Except FrameError (Endpoint P × List Bytes) := do
  let frames ← (ports.frames e call).2
  let sent := ports.sendFrames e.counter frames
  return ({ (ports.frames e call).1 with counter := sent.1 }, sent.2)

def run : Endpoint P → List (EndpointCall P) → Except FrameError (Endpoint P × List Bytes)
  | e, [] => .ok (e, [])
  | e, call :: calls => do
    let first ← ports.step e call
    let rest ← run first.1 calls
    return (rest.1, first.2 ++ rest.2)

end SendPorts

end Reconcile
