import Reconcile.FramedSend.Origin
import Reconcile.Replay.Filter

namespace Reconcile
open Lib Replay
set_option autoImplicit true

/-- The largest payload of a datagram; the receive buffer has one byte more. -/
def bufferSize : Nat := 65507

structure PeerCap where
  max : Nat

def PeerCap.admits (cap : PeerCap) (known : Bool) (currentLen : Nat) : Bool :=
  known || currentLen < cap.max

inductive InboundRejection where
  | authentication
  | version (found : UInt8)
  | peerCap (currentLen max : Nat)
  | replay (seq stamp : Nat)
  deriving DecidableEq

structure ReplayFilter (P : Type) where
  policy : Policy
  enabled : Bool
  peers : HashMap P Replay.PeerState := ∅

section Gate

variable {P : Type} [DecidableEq P]

def ReplayFilter.checkAndRecord (filter : ReplayFilter P) (sender : P) (seq stamp now : Nat) :
    Bool × ReplayFilter P :=
  if !filter.enabled then (true, filter)
  else
    let checked := checkAndRecordSender filter.policy filter.peers sender seq stamp now
    (checked.1, { filter with peers := checked.2 })

/-- The gate every datagram passes: authentication, version, the cap on peers, replay. `known` and
`currentLen` describe the sender's place among the peers that count. -/
def admitInbound (C : Primitives) (authenticator : Authenticator) (filter : ReplayFilter P)
    (cap : PeerCap) (sender : P) (datagram : Bytes) (known : Bool) (currentLen now : Nat) :
    ReplayFilter P × Except InboundRejection Payload :=
  match authenticator.open C datagram with
  | none => (filter, .error .authentication)
  | some payload =>
    match payload.checkVersion with
    | .error found => (filter, .error (.version found))
    | .ok payload =>
      if !cap.admits known currentLen then (filter, .error (.peerCap currentLen cap.max))
      else
        let checked := filter.checkAndRecord sender payload.seq payload.stamp now
        (checked.2, if checked.1 then .ok payload else .error (.replay payload.seq payload.stamp))

variable {C : Primitives} {authenticator : Authenticator} {filter : ReplayFilter P} {cap : PeerCap}

theorem admitInbound_ok {sender : P}
    (h : (admitInbound C authenticator filter cap sender datagram known currentLen now).2 =
      .ok payload) :
    ∃ opened, authenticator.open C datagram = some opened ∧ opened.checkVersion = .ok payload ∧
      cap.admits known currentLen = true ∧
      (filter.checkAndRecord sender payload.seq payload.stamp now).1 = true := by
  unfold admitInbound at h
  split at h
  · cases h
  next opened hopen =>
  split at h
  · cases h
  next versioned hversion =>
  split at h
  · cases h
  next hcap =>
  simp only at h
  split at h
  · next hreplay =>
    cases h
    exact ⟨opened, hopen, hversion, by simpa using hcap, hreplay⟩
  · cases h

end Gate

theorem encodeReplayHeader_mod (seq stamp : Nat) :
    encodeReplayHeader (seq % 2 ^ 64) (stamp % 2 ^ 64) = encodeReplayHeader seq stamp := by
  rw [encodeReplayHeader, show 2 ^ 64 = 256 ^ 8 from rfl, Wire.leBytes_mod, Wire.leBytes_mod]
  rfl

namespace Authenticator

variable {C : Primitives}

theorem seal_mod (a : Authenticator) (seq stamp : Nat) (nonce : Fixed 24) (frame : Bytes) :
    a.seal C (seq % 2 ^ 64) (stamp % 2 ^ 64) nonce frame = a.seal C seq stamp nonce frame := by
  cases a with
  | disabled => rfl
  | enabled keys => simp only [«seal», encodeReplayHeader_mod]
  | encrypted keys => simp only [«seal», encodeReplayHeader_mod]

theorem open_seal_frame {a b : Authenticator} (h : a.Shares C b)
    (hopen : b.open C (a.seal C seq stamp nonce frame) = some opened)
    (hversion : opened.checkVersion = .ok payload) : payload.bytes = frame := by
  have hpos : 0 < 2 ^ 64 := by decide
  rw [← seal_mod, open_seal h (Nat.mod_lt _ hpos) (Nat.mod_lt _ hpos)] at hopen
  cases hopen
  cases hversion
  rfl

end Authenticator

namespace SendPorts

variable {P : Type} [LinearOrder P]

def Completes (ports : SendPorts) (e : Endpoint P) (bytes logical : Bytes) : Prop :=
  ∃ opened payload sender now, ports.authenticator.open ports.primitives bytes = some opened ∧
    opened.checkVersion = .ok payload ∧
    (ports.receiveFrame e sender payload.bytes now).2.1 = some logical

/-- What is completed has the hash of a payload handed over by the node that sealed the datagram. -/
theorem Completes.origin {sealer receiver : SendPorts} {W : Bytes → Prop} {e : Endpoint P}
    (h : receiver.Completes e bytes logical) (hs : sealer.Sealed W bytes)
    (hprimitives : sealer.primitives = receiver.primitives) (hhash : sealer.hash = receiver.hash)
    (hshares : sealer.authenticator.Shares receiver.primitives receiver.authenticator) :
    ∃ w, W w ∧ receiver.hash w = receiver.hash logical := by
  obtain ⟨opened, payload, sender, now, hopen, hversion, hlogical⟩ := h
  obtain ⟨frame, seq, stamp, nonce, hcarries, rfl⟩ := hs
  rw [hprimitives] at hopen
  rw [hhash] at hcarries
  rw [Authenticator.open_seal_frame hshares hopen hversion] at hlogical
  exact receiveFrame_payload hcarries hlogical

end SendPorts

end Reconcile
