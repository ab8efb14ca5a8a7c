import Reconcile.Engine
import Reconcile.Persistence

namespace Reconcile
open Lib
set_option autoImplicit true

structure MemberReplica (K V P T : Type) extends Replica K V P T where
  members : HashSet P := ∅
  tombstoneAcks : HashMap K (HashMap P Nat) := ∅

variable {K V P T : Type} [DecidableEq K] [DecidableEq P]

/-- The empty quorum is complete. -/
def allMembersAcknowledged (members : HashSet P) (tombstoneAcks : HashMap K (HashMap P Nat))
    (key : K) (version : Nat) : Bool :=
  if members.len = 0 then true
  else
    match tombstoneAcks.lookup key with
    | none => false
    | some keyAcks => members.keys.all fun peer => keyAcks.lookup peer = some version

/-- Everything that changes a replica, one completed operation each. Stamps are those the clock
minted for the call; a batch to merge was filtered against some earlier state. -/
inductive Operation (K V P T : Type) where
  | call (call : LocalCall K V) (stamps : List T)
  | receive (updates : List (K × Entry T V))
  | merge (toApply : List (K × Entry T V))
  | collect (key : K) (expected : T) (now : Int) (retention : Nat)
  | restore (state : PersistedState K V P T)
  | acks (peer : P) (acks : List (K × Nat))
  | join (peer : P)
  | decommission (peer : P)

namespace MemberReplica

def join (r : MemberReplica K V P T) (peer : P) : MemberReplica K V P T :=
  if r.members.contains peer then r
  else
    { r with
      toReplica := { r.toReplica with generations := r.generations.record (.member peer true) }
        |>.recordChanges 1
      members := r.members.insert peer () }

def retireChangeCount (r : MemberReplica K V P T) (counted : Nat) : MemberReplica K V P T :=
  { r with changesSinceSnapshot := r.changesSinceSnapshot - counted }

/-- Load a snapshot: its entries go through the insert path, and leave the journal clean. -/
def restore (r : MemberReplica K V P T) (state : PersistedState K V P T) :
    MemberReplica K V P T :=
  let untracked := { r.toReplica with generations := r.generations.setTrackingEnabled false }
  let loaded := untracked.justInsertBulk state.entries
  let r' : MemberReplica K V P T :=
    { toReplica := { loaded with generations := loaded.generations.resetClean }
      members := state.members
      tombstoneAcks := state.tombstoneAcks }
  r'.retireChangeCount r'.changesSinceSnapshot

def acknowledgedVersion (r : MemberReplica K V P T) (key : K) (peer : P) : Option Nat :=
  (r.tombstoneAcks.lookup key).bind (·.lookup peer)

/-- Only acknowledgements of tombstones held here are kept. Changes are counted as they are made, the
source adds them up and counts them once. -/
def recordAck (r : MemberReplica K V P T) (peer : P) (key : K) (version : Nat) :
    MemberReplica K V P T :=
  if (r.map.lookup key).any Entry.isTombstone then
    let keyAcks := (r.tombstoneAcks.lookup key).getD ∅
    if keyAcks.lookup peer = some version then r
    else
      { r with
        toReplica := { r.toReplica with
          generations := r.generations.record (.ack key peer (some version)) }.recordChanges 1
        tombstoneAcks := r.tombstoneAcks.insert key (keyAcks.insert peer version) }
  else r

def recordTombstoneAcks (r : MemberReplica K V P T) (peer : P) (acks : List (K × Nat)) :
    MemberReplica K V P T :=
  acks.foldl (fun r ack => r.recordAck peer ack.1 ack.2) r

def forgetAck (peer : P) (r : MemberReplica K V P T) (key : K) : MemberReplica K V P T :=
  match r.tombstoneAcks.lookup key with
  | none => r
  | some keyAcks =>
    if keyAcks.contains peer then
      { r with
        toReplica := { r.toReplica with
          generations := r.generations.record (.ack key peer none) }.recordChanges 1
        tombstoneAcks := r.tombstoneAcks.insert key (keyAcks.erase peer) }
    else r

def decommissionPeer (r : MemberReplica K V P T) (peer : P) : MemberReplica K V P T :=
  let removed : MemberReplica K V P T :=
    if r.members.contains peer then
      { r with
        toReplica := { r.toReplica with
          generations := r.generations.record (.member peer false) }.recordChanges 1
        members := r.members.erase peer }
    else r
  r.tombstoneAcks.keys.foldl (forgetAck peer) removed

section Register

variable [LinearOrder T] (R : Rsos T V)

def isTombstoneStable (r : MemberReplica K V P T) (key : K) (version : Nat) : Bool :=
  allMembersAcknowledged r.members r.tombstoneAcks key version

def hasPendingTombstoneAcks (r : MemberReplica K V P T) (peer : P) : Bool :=
  r.liveTombstones.keys.any fun key =>
    match r.map.lookup key with
    | none => false
    | some entry => r.acknowledgedVersion key peer ≠ some (R.versionHash entry)

def collectCandidate (physical : T → Nat) (r : MemberReplica K V P T) (key : K) (expected : T)
    (now : Int) (retention : Nat) : Option (Entry T V) × MemberReplica K V P T :=
  match r.map.lookup key with
  | none => (none, r)
  | some entry =>
    if !entry.isTombstone ∨ entry.stamp ≠ expected then (none, r)
    else if now < 0 then (none, r)
    else if now.toNat ≤ physical entry.stamp + retention ∨
        !r.isTombstoneStable key (R.versionHash entry) then (none, r)
    else
      let acked := r.tombstoneAcks.contains key
      let generations := r.generations.record (.physicalDelete key)
      (some entry,
        { toReplica := { r.toReplica with
            liveTombstones := r.liveTombstones.erase key
            projection := r.projection.erase key
            map := r.map.erase key
            generations :=
              if acked then generations.record (.ackKeyClear key) else generations }.recordChanges
                (if acked then 2 else 1)
          members := r.members
          tombstoneAcks := r.tombstoneAcks.erase key })

def apply (physical : T → Nat) (r : MemberReplica K V P T) :
    Operation K V P T → MemberReplica K V P T
  | .call call stamps => { r with toReplica := call.store r.toReplica stamps }
  | .receive updates =>
    let toApply := (filterDatedUpdates R r.map updates).1
    if toApply.isEmpty then r
    else { r with toReplica := (r.toReplica.mergeDatedUpdates R toApply).1 }
  | .merge toApply => { r with toReplica := (r.toReplica.mergeDatedUpdates R toApply).1 }
  | .collect key expected now retention =>
    (r.collectCandidate R physical key expected now retention).2
  | .restore state => r.restore state
  | .acks peer acks => r.recordTombstoneAcks peer acks
  | .join peer => r.join peer
  | .decommission peer => r.decommissionPeer peer

end Register

end MemberReplica

namespace Replica

omit [DecidableEq P] in
theorem Mirrored.generations {r : Replica K V P T} (h : r.Mirrored)
    (g : GenerationState K V P T) : { r with generations := g }.Mirrored :=
  ⟨h.projection, h.tombstones⟩

omit [DecidableEq P] in
theorem Mirrored.erase {r : Replica K V P T} (h : r.Mirrored) (key : K) :
    { r with
      liveTombstones := r.liveTombstones.erase key
      projection := r.projection.erase key
      map := r.map.erase key }.Mirrored := by
  constructor
  · intro k
    simp only [HashMap.lookup_erase_eq]
    split
    · rfl
    · exact h.projection k
  · intro k
    simp only [HashMap.lookup_erase_eq, AList.mem_erase, h.tombstones k]
    by_cases hk : k = key
    · simp only [hk, ne_eq, not_true_eq_false, false_and, if_true, reduceCtorEq, exists_false]
    · simp only [ne_eq, hk, not_false_eq_true, true_and, if_false]

end Replica

namespace MemberReplica

omit [DecidableEq P] in
theorem mirrored_foldl {step : MemberReplica K V P T → α → MemberReplica K V P T}
    (hstep : ∀ r a, r.Mirrored → (step r a).Mirrored) {r : MemberReplica K V P T}
    (h : r.Mirrored) (l : List α) : (l.foldl step r).Mirrored := by
  induction l generalizing r with
  | nil => exact h
  | cons a l ih => exact ih (hstep r a h)

theorem mirrored_restore {r : MemberReplica K V P T} (h : r.Mirrored)
    (state : PersistedState K V P T) : (r.restore state).Mirrored := by
  have hloaded := ((h.generations (r.generations.setTrackingEnabled false)).mapInsertAll
    state.entries).recordChanges state.entries.length
  exact ⟨hloaded.projection, hloaded.tombstones⟩

theorem mirrored_join {r : MemberReplica K V P T} (h : r.Mirrored) (peer : P) :
    (r.join peer).Mirrored := by
  unfold join
  split
  · exact h
  · exact ⟨h.projection, h.tombstones⟩

theorem mirrored_recordAck {r : MemberReplica K V P T} (h : r.Mirrored) (peer : P) (key : K)
    (version : Nat) : (r.recordAck peer key version).Mirrored := by
  unfold recordAck
  simp only
  split
  · split
    · exact h
    · exact ⟨h.projection, h.tombstones⟩
  · exact h

theorem mirrored_recordTombstoneAcks {r : MemberReplica K V P T} (h : r.Mirrored) (peer : P)
    (acks : List (K × Nat)) : (r.recordTombstoneAcks peer acks).Mirrored :=
  mirrored_foldl (fun _ ack hr => mirrored_recordAck hr peer ack.1 ack.2) h acks

theorem mirrored_forgetAck {r : MemberReplica K V P T} (h : r.Mirrored) (peer : P) (key : K) :
    (forgetAck peer r key).Mirrored := by
  unfold forgetAck
  split
  · exact h
  · split
    · exact ⟨h.projection, h.tombstones⟩
    · exact h

theorem mirrored_decommissionPeer {r : MemberReplica K V P T} (h : r.Mirrored) (peer : P) :
    (r.decommissionPeer peer).Mirrored := by
  apply mirrored_foldl fun _ key hr => mirrored_forgetAck hr peer key
  split
  · exact ⟨h.projection, h.tombstones⟩
  · exact h

section Register

variable [LinearOrder T] (R : Rsos T V) (physical : T → Nat)

theorem mirrored_collectCandidate {r : MemberReplica K V P T} (h : r.Mirrored) (key : K)
    (expected : T) (now : Int) (retention : Nat) :
    (r.collectCandidate R physical key expected now retention).2.Mirrored := by
  unfold collectCandidate
  split
  · exact h
  split
  · exact h
  split
  · exact h
  split
  · exact h
  · exact ((h.erase key).generations _).recordChanges _

/-- Every operation, its reject paths included, leaves both indexes in step with the map. -/
theorem mirrored_apply {r : MemberReplica K V P T} (h : r.Mirrored) (op : Operation K V P T) :
    (r.apply R physical op).Mirrored := by
  cases op with
  | call call stamps => exact LocalCall.store_mirrored h call stamps
  | receive updates =>
    unfold apply
    simp only
    split
    · exact h
    · exact (h.mergeLoop R _).recordChanges _
  | merge toApply => exact (h.mergeLoop R toApply).recordChanges _
  | collect key expected now retention =>
    exact mirrored_collectCandidate R physical h key expected now retention
  | restore state => exact mirrored_restore h state
  | acks peer acks => exact mirrored_recordTombstoneAcks h peer acks
  | join peer => exact mirrored_join h peer
  | decommission peer => exact mirrored_decommissionPeer h peer

/-- After any sequence of operations from the empty replica the projection is the map projected key
by key, and the tombstone index holds exactly the keys whose entry is a tombstone. -/
theorem index_coherent (ops : List (Operation K V P T)) :
    let r := ops.foldl (apply R physical) {}
    (∀ k, r.projection.lookup k = (r.map.lookup k).map Entry.project) ∧
      ∀ k, k ∈ r.liveTombstones ↔ ∃ e, r.map.lookup k = some e ∧ e.isTombstone = true := by
  have hempty : ({} : MemberReplica K V P T).Mirrored := by
    constructor
    · intro k
      rfl
    · intro k
      constructor
      · intro hk
        exact absurd hk (AList.notMem_empty k)
      · rintro ⟨e, he, _⟩
        cases he
  have hrun : (ops.foldl (apply R physical) {}).Mirrored :=
    mirrored_foldl (fun _ op hr => mirrored_apply R physical hr op) hempty ops
  exact ⟨hrun.projection, hrun.tombstones⟩

end Register

end MemberReplica

end Reconcile
