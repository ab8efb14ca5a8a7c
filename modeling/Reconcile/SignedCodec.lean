import Reconcile.Auth
import Reconcile.Bincode
import Reconcile.Clock
import Reconcile.Lib.Fixed

namespace Reconcile
open Lib
set_option autoImplicit true

namespace SignedLayout

open Lib.Wire

def below (k n : Nat) : Wire (Fin n) :=
  (uint k).via Fin.val (fun m => if h : m < n then some ⟨m, h⟩ else none) fun m => dif_pos m.isLt

def timestamp : Wire Timestamp :=
  (pair (pair (below 8 _) (below 4 _)) (below 8 _)).via
    (fun t => ((t.hlc.physical, t.hlc.logical), t.nodeId))
    (fun p => some ⟨⟨p.1.1, p.1.2⟩, p.2⟩) fun _ => rfl

def peerId : Wire PeerId := fixed 32

def entry : Wire (Entry Timestamp Nat) :=
  (pair timestamp Layout.state).via (fun e => (e.stamp, e.state)) (fun p => some ⟨p.1, p.2⟩)
    fun _ => rfl

def persistedState : Wire (PersistedState Nat Nat PeerId Timestamp) :=
  (pair (list (pair (uint 8) entry))
    (pair (hashMap peerId unit) (hashMap (uint 8) (hashMap peerId (uint 8))))).via
    (fun s => (s.entries, s.members, s.tombstoneAcks))
    (fun p => some ⟨p.1, p.2.1, p.2.2⟩) fun _ => rfl

def persistenceDelta : Wire (PersistenceDelta Nat Nat PeerId Timestamp) :=
  (pair (hashMap (uint 8) (option entry)) (pair (hashMap peerId bool)
    (pair (hashMap (uint 8) unit) (hashMap (uint 8) (hashMap peerId (option (uint 8))))))).via
    (fun s => (s.entries, s.members, s.ackKeyClears, s.ackPeers))
    (fun p => some ⟨p.1, p.2.1, p.2.2.1, p.2.2.2⟩) fun _ => rfl

def baseSegment : Wire (BaseSegment Nat Nat PeerId Timestamp) :=
  (pair (uint 8) persistedState).via (fun s => (s.generation, s.state))
    (fun p => some ⟨p.1, p.2⟩) fun _ => rfl

def deltaSegment : Wire (DeltaSegment Nat Nat PeerId Timestamp) :=
  (pair (uint 8) (pair (uint 8) persistenceDelta)).via
    (fun s => (s.fromGeneration, s.toGeneration, s.delta))
    (fun p => some ⟨p.1, p.2.1, p.2.2⟩) fun _ => rfl

end SignedLayout

/-- The signed schema for 64-bit keys and values: peers are public keys, stamps are timestamps. The
digest only has the right length, as in `u64Codec`. -/
def signedCodec : Codec Nat Nat PeerId Timestamp where
  version := peerIdFormatVersion
  manifest := .ofWire Layout.manifest
  base := .ofWire SignedLayout.baseSegment
  delta := .ofWire SignedLayout.deltaSegment
  snapshot := .ofWire SignedLayout.persistedState
  hash _ := List.replicate objectChecksumLen 0
  hash_length _ := length_zeroChecksum

end Reconcile
