import Reconcile.Framing.Recovery

namespace Reconcile
open Lib
set_option autoImplicit true

structure OutboundTransfer where
  payload : Bytes
  lastActivity : Nat
  lastFullSend : Nat
  recoveryRounds : Nat

/-- Peers known to support selective recovery, and the payloads they may ask for again. -/
structure RecoveryBook (P : Type) where
  capabilities : HashMap P Nat
  outbound : HashMap (P × TransferId) OutboundTransfer
  totalBytes : Nat

structure RetainReport where
  retained : Bool
  skipFullSend : Bool
  fallbackFullRetry : Bool
  expired : Nat
  evicted : Nat
  transfers : Nat
  bytes : Nat

structure RecoveryPayload where
  payload : Bytes
  exhaustedAfterThisRound : Bool

namespace RecoveryBook

variable {P : Type} [LinearOrder P]

def forIdentity : RecoveryBook P := ⟨∅, ∅, 0⟩

def remove (b : RecoveryBook P) (key : P × TransferId) : RecoveryBook P :=
  match b.outbound.lookup key with
  | none => b
  | some t =>
    { b with
      outbound := b.outbound.erase key
      totalBytes := b.totalBytes - t.payload.length }

def expireCapabilities (b : RecoveryBook P) (now ttl : Nat) : RecoveryBook P :=
  { b with capabilities := b.capabilities.retain fun seen => now - seen < ttl }

def expiredOutbound (b : RecoveryBook P) (now ttl : Nat) : List (P × TransferId) :=
  (b.outbound.toList.filter fun t => ttl ≤ now - t.2.lastActivity).map Prod.fst

def expireOutbound (b : RecoveryBook P) (now ttl : Nat) : RecoveryBook P × Nat :=
  ((b.expiredOutbound now ttl).foldl remove b, (b.expiredOutbound now ttl).length)

def expire (b : RecoveryBook P) (now : Nat) (config : FramingConfig) : RecoveryBook P :=
  ((b.expireCapabilities now config.recoveryCapabilityTtl).expireOutbound now
    config.recoveryTtl).1

def recordCapability (b : RecoveryBook P) (peer : P) (now : Nat) (config : FramingConfig)
    (maxPeers : Nat) : RecoveryBook P :=
  if config.selectiveRecovery then
    let b := b.expire now config
    if b.capabilities.contains peer ∨ b.capabilities.len < maxPeers then
      { b with capabilities := b.capabilities.insert peer now }
    else b
  else b

def supports (b : RecoveryBook P) (peer : P) (now : Nat) (config : FramingConfig) :
    RecoveryBook P × Bool :=
  if config.selectiveRecovery then
    let b := b.expireCapabilities now config.recoveryCapabilityTtl
    (b, b.capabilities.contains peer)
  else (b, false)

def peerTransferCount (b : RecoveryBook P) (peer : P) : Nat :=
  b.outbound.toList.countP fun t => t.1.1 = peer

def peerBytes (b : RecoveryBook P) (peer : P) : Nat :=
  ((b.outbound.toList.filter fun t => t.1.1 = peer).map fun t => t.2.payload.length).sum

def oldest (b : RecoveryBook P) (peer : Option P) : Option (P × TransferId) :=
  ((b.outbound.toList.filter fun t => peer.all fun wanted => t.1.1 = wanted).map
    fun t => toLex (t.2.lastActivity, toLex t.1)).min?.map fun a => ofLex (ofLex a).2

def retainReport (b : RecoveryBook P) (retained : Bool) (expired evicted : Nat)
    (skipFullSend fallbackFullRetry : Bool) : RecoveryBook P × RetainReport :=
  (b, ⟨retained, skipFullSend, fallbackFullRetry, expired, evicted, b.outbound.len, b.totalBytes⟩)

def makeRoom (b : RecoveryBook P) (peer : Option P) (full : RecoveryBook P → Bool)
    (evicted : Nat) : RecoveryBook P × Nat × Bool :=
  evictWhile full (fun b => b.oldest peer) remove b.outbound.len b evicted

def fullRetryInterval : Nat := 12000

/-- Keep a payload that a capable peer may ask for again; a payload already kept is not sent in full
again before the retry interval is over. -/
def retain (b : RecoveryBook P) (peer : P) (id : TransferId) (payload : Bytes) (now : Nat)
    (config : FramingConfig) : RecoveryBook P × RetainReport :=
  let expiry := b.expireOutbound now config.recoveryTtl
  let b := expiry.1
  if !config.selectiveRecovery ∨ config.maxOutboundRecoveryBytesPerPeer < payload.length ∨
      config.maxTotalOutboundRecoveryBytes < payload.length ∨
      config.maxOutboundRecoveryTransfersPerPeer = 0 ∨
      config.maxTotalOutboundRecoveryTransfers = 0 then
    b.retainReport false expiry.2 0 false false
  else
    match b.outbound.lookup (peer, id) with
    | some t =>
      let retry := decide (fullRetryInterval ≤ now - t.lastFullSend)
      let t := { t with
        lastActivity := now
        lastFullSend := if retry then now else t.lastFullSend }
      { b with outbound := b.outbound.insert (peer, id) t }.retainReport true expiry.2 0 (!retry)
        retry
    | none =>
      let s := b.makeRoom (some peer)
        (fun b => config.maxOutboundRecoveryTransfersPerPeer ≤ b.peerTransferCount peer) 0
      if !s.2.2 then s.1.retainReport false expiry.2 s.2.1 false false
      else
      let s := s.1.makeRoom none
        (fun b => config.maxTotalOutboundRecoveryTransfers ≤ b.outbound.len) s.2.1
      if !s.2.2 then s.1.retainReport false expiry.2 s.2.1 false false
      else
      let s := s.1.makeRoom (some peer)
        (fun b => config.maxOutboundRecoveryBytesPerPeer < b.peerBytes peer + payload.length) s.2.1
      if !s.2.2 then s.1.retainReport false expiry.2 s.2.1 false false
      else
      let s := s.1.makeRoom none
        (fun b => config.maxTotalOutboundRecoveryBytes < b.totalBytes + payload.length) s.2.1
      if !s.2.2 then s.1.retainReport false expiry.2 s.2.1 false false
      else
      { s.1 with
        totalBytes := s.1.totalBytes + payload.length
        outbound := s.1.outbound.insert (peer, id) ⟨payload, now, now, 0⟩ }.retainReport true
          expiry.2 s.2.1 false false

def payloadForReport (b : RecoveryBook P) (peer : P) (id : TransferId) (now : Nat)
    (config : FramingConfig) : RecoveryBook P × Option RecoveryPayload :=
  let b := (b.expireOutbound now config.recoveryTtl).1
  match b.outbound.lookup (peer, id) with
  | none => (b, none)
  | some t =>
    if config.maxSelectiveRecoveryRounds ≤ t.recoveryRounds then (b, none)
    else
      let t := { t with lastActivity := now, recoveryRounds := t.recoveryRounds + 1 }
      ({ b with outbound := b.outbound.insert (peer, id) t },
        some ⟨t.payload, config.maxSelectiveRecoveryRounds ≤ t.recoveryRounds⟩)

/-- Whether a completed transfer was still kept. -/
def complete (b : RecoveryBook P) (peer : P) (id : TransferId) : RecoveryBook P × Bool :=
  (b.remove (peer, id), (b.outbound.lookup (peer, id)).isSome)

def forget (b : RecoveryBook P) (peer : P) (id : TransferId) : RecoveryBook P × Bool :=
  (b.remove (peer, id), (b.outbound.lookup (peer, id)).isSome)

end RecoveryBook

def reportValid (length : Nat) : Nat → List (Nat × Nat) → Bool
  | _, [] => true
  | previousEnd, (start, len) :: ranges =>
    if len = 0 ∨ length < start + len ∨ start < previousEnd then false
    else reportValid length (start + len) ranges

def rangeFragments (c : Nat) (payload : Bytes) (start stop : Nat) : List (Nat × Bytes) :=
  Pieces.cut c start ((payload.drop start).take (stop - start))

def sendFragments (id : TransferId) (totalLen : Nat) (send : Bytes → Bool) :
    List (Nat × Bytes) → List Bytes × Bool
  | [] => ([], true)
  | p :: ps =>
    match writeFragment id totalLen p.1 p.2 with
    | .error _ => ([], false)
    | .ok frame =>
      if send frame then
        let rest := sendFragments id totalLen send ps
        (frame :: rest.1, rest.2)
      else ([], false)

/-- Retransmit the reported ranges of a kept payload: the frames handed over, and whether all of them
were. `send` says which frames the transport takes. -/
def retransmitMissingTo [LinearOrder P] (config : FramingConfig) (overhead : Nat)
    (send : Bytes → Bool) (b : RecoveryBook P) (peer : P) (id : TransferId)
    (ranges : List (Nat × Nat)) (now : Nat) : RecoveryBook P × List Bytes × Bool :=
  if !config.selectiveRecovery then (b, [], false)
  else
    let support := b.supports peer now config
    if !support.2 then (support.1, [], false)
    else
      let kept := support.1.payloadForReport peer id now config
      match kept.2 with
      | none => (kept.1, [], false)
      | some recovery =>
        let capacity :=
          (fragmentPayloadCapacity config.datagramPayloadBudget overhead).getD 0
        if capacity = 0 then (kept.1, [], false)
        else if !reportValid recovery.payload.length 0 ranges then (kept.1, [], false)
        else
          let sent := sendFragments id recovery.payload.length send (ranges.flatMap fun g =>
            rangeFragments capacity recovery.payload g.1 (g.1 + g.2))
          if sent.2 then
            (if recovery.exhaustedAfterThisRound then kept.1.remove (peer, id) else kept.1,
              sent.1, true)
          else (kept.1, sent.1, false)

/-- The signed sender clips the ranges to the payload and stops at a number of frames. -/
def resendFrames (id : TransferId) (payload : Bytes) (chunk maxFramesPerTick : Nat)
    (ranges : List (Nat × Nat)) : Except FrameError (List Bytes) :=
  writeFragments id payload.length ((ranges.flatMap fun g =>
    rangeFragments chunk payload g.1 (min (g.1 + g.2) payload.length)).take (max maxFramesPerTick 1))

end Reconcile
