import Reconcile.Lib.Wire
import Reconcile.Storage

namespace Reconcile
open Lib
set_option autoImplicit true

/-- `bincode::deserialize` reads one value and ignores what follows it. -/
def Bincode.ofWire (w : Wire α) : Bincode α where
  serialize := w.write
  deserialize bytes := (w.read bytes).map Prod.fst
  roundtrip a bytes h := by
    have hr := w.read_write a bytes [] h
    rw [List.append_nil] at hr
    rw [hr]
    rfl

namespace Layout

open Lib.Wire

def state : Wire (State Nat) :=
  (sum 4 (uint 8) unit).via
    (fun
      | .present v => .inl v
      | .tombstone => .inr ())
    (fun
      | .inl v => some (.present v)
      | .inr _ => some .tombstone)
    (fun s => by cases s <;> rfl)

def entry : Wire (Entry Nat Nat) :=
  (pair (uint 8) state).via (fun e => (e.stamp, e.state)) (fun p => some ⟨p.1, p.2⟩) fun _ => rfl

def manifest : Wire Manifest :=
  (pair (uint 8) (pair (uint 8) (pair (uint 8) (uint 8)))).via
    (fun m => (m.baseGeneration, m.baseBytes, m.currentGeneration, m.deltaBytes))
    (fun p => some ⟨p.1, p.2.1, p.2.2.1, p.2.2.2⟩) fun _ => rfl

def persistedState : Wire (PersistedState Nat Nat Nat Nat) :=
  (pair (list (pair (uint 8) entry))
    (pair (hashMap (uint 8) unit) (hashMap (uint 8) (hashMap (uint 8) (uint 8))))).via
    (fun s => (s.entries, s.members, s.tombstoneAcks))
    (fun p => some ⟨p.1, p.2.1, p.2.2⟩) fun _ => rfl

def persistenceDelta : Wire (PersistenceDelta Nat Nat Nat Nat) :=
  (pair (hashMap (uint 8) (option entry)) (pair (hashMap (uint 8) bool)
    (pair (hashMap (uint 8) unit) (hashMap (uint 8) (hashMap (uint 8) (option (uint 8))))))).via
    (fun s => (s.entries, s.members, s.ackKeyClears, s.ackPeers))
    (fun p => some ⟨p.1, p.2.1, p.2.2.1, p.2.2.2⟩) fun _ => rfl

def baseSegment : Wire (BaseSegment Nat Nat Nat Nat) :=
  (pair (uint 8) persistedState).via (fun s => (s.generation, s.state))
    (fun p => some ⟨p.1, p.2⟩) fun _ => rfl

def deltaSegment : Wire (DeltaSegment Nat Nat Nat Nat) :=
  (pair (uint 8) (pair (uint 8) persistenceDelta)).via
    (fun s => (s.fromGeneration, s.toGeneration, s.delta))
    (fun p => some ⟨p.1, p.2.1, p.2.2⟩) fun _ => rfl

end Layout

theorem length_zeroChecksum :
    (List.replicate objectChecksumLen (0 : UInt8)).length = objectChecksumLen :=
  List.length_replicate

/-- The layout of `bincode` for 64-bit keys, values, peers and stamps. The digest only has the
right length: nothing in the store's logic depends on how it is computed. -/
def u64Codec (version : UInt32) : Codec Nat Nat Nat Nat where
  version := version
  manifest := .ofWire Layout.manifest
  base := .ofWire Layout.baseSegment
  delta := .ofWire Layout.deltaSegment
  snapshot := .ofWire Layout.persistedState
  hash _ := List.replicate objectChecksumLen 0
  hash_length _ := length_zeroChecksum

end Reconcile
