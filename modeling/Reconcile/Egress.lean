import Reconcile.Lib.Transition
import Reconcile.Replica

namespace Reconcile
open Lib
set_option autoImplicit true

structure ValueTooLarge where
  encodedSize : Nat
  maxValueSize : Nat
  deriving DecidableEq, Repr

structure Backpressure where
  inFlight : Nat
  maxInFlight : Nat
  deriving DecidableEq, Repr

inductive WriteRejected where
  | tooLarge (err : ValueTooLarge)
  | backpressure (err : Backpressure)
  deriving DecidableEq, Repr

structure EgressConfig (V : Type) where
  maxConcurrentBroadcasts : Nat
  max_le : maxConcurrentBroadcasts ≤ u64Max
  maxValueSize : Option Nat
  encodedSize : V → Nat
  coalescing : Bool

def EgressConfig.checkValueSize (cfg : EgressConfig V) (value : V) : Except ValueTooLarge Unit :=
  match cfg.maxValueSize with
  | none => .ok ()
  | some maxValueSize =>
    if cfg.encodedSize value > maxValueSize then .error ⟨cfg.encodedSize value, maxValueSize⟩
    else .ok ()

inductive WriteOutcome (V : Type) where
  | previous (value : Option V)
  | updated (live : Bool)
  deriving DecidableEq

/-- Where a `try_insert` or `try_update` call stands. The stamp of an insert is minted before its
slot is claimed, that of an update after. -/
inductive FallibleCall (K V T : Type) where
  | inserting (key : K) (entry : Entry T V)
  | updating (key : K) (callback : V → V)
  | refused
  | insertClaimed (key : K) (entry : Entry T V)
  | updateClaimed (key : K) (callback : V → V)
  | applied (key : K) (entry : Entry T V) (outcome : WriteOutcome V)
  | dropping (result : Except WriteRejected (WriteOutcome V))
  | returned (result : Except WriteRejected (WriteOutcome V))
  | panicked

def FallibleCall.holdsSlot : FallibleCall K V T → Bool
  | .insertClaimed _ _ | .updateClaimed _ _ | .applied _ _ _ | .dropping _ => true
  | _ => false

/-- The replica, the egress counter, and the owners of its slots: the detached send tasks, each with
what it broadcasts, and the calls in progress. -/
structure Egress (K V P T : Type) where
  replica : Replica K V P T := {}
  broadcastsInFlight : Nat := 0
  coalescePending : HashMap K (Entry T V) := ∅
  tasks : List (List (K × Entry T V)) := []
  calls : List (FallibleCall K V T) := []

variable {K V P T : Type}

namespace Egress

def tryClaimBroadcastSlot (cfg : EgressConfig V) (s : Egress K V P T) : Option (Egress K V P T) :=
  if s.broadcastsInFlight < cfg.maxConcurrentBroadcasts then
    some { s with broadcastsInFlight := s.broadcastsInFlight + 1 }
  else none

def dropGuard (s : Egress K V P T) : Egress K V P T :=
  { s with broadcastsInFlight := (s.broadcastsInFlight + u64Max) % (u64Max + 1) }

theorem dropGuard_claimed {s : Egress K V P T} (h : s.broadcastsInFlight < u64Max) :
    { s with broadcastsInFlight := s.broadcastsInFlight + 1 }.dropGuard = s := by
  have hn : (s.broadcastsInFlight + 1 + u64Max) % (u64Max + 1) = s.broadcastsInFlight := by
    rw [Nat.add_assoc, Nat.add_comm 1, Nat.add_mod_right, Nat.mod_eq_of_lt (by omega)]
  simp only [dropGuard, hn]

def spawnBroadcast (s : Egress K V P T) (messages : List (K × Entry T V)) : Egress K V P T :=
  { s with tasks := s.tasks ++ [messages] }

/-- At the budget the eager push is skipped. -/
def broadcast (cfg : EgressConfig V) (s : Egress K V P T) (messages : List (K × Entry T V)) :
    Egress K V P T :=
  match s.tryClaimBroadcastSlot cfg with
  | some s' => s'.spawnBroadcast messages
  | none => s

variable [DecidableEq K] [DecidableEq P]

section Register

variable [LinearOrder T] (R : Rsos T V)

def queueBroadcast (cfg : EgressConfig V) (s : Egress K V P T) (keyValues : List (K × Entry T V)) :
    Egress K V P T :=
  if keyValues.isEmpty then s
  else if cfg.coalescing then
    { s with
      coalescePending := keyValues.foldl (fun pending kv =>
        pending.insert kv.1 (((pending.lookup kv.1).map (R.merge · kv.2)).getD kv.2))
          s.coalescePending }
  else s.broadcast cfg keyValues

def getMut (cfg : EgressConfig V) (s : Egress K V P T) (k : K) (callback : V → V) (now : T) :
    Egress K V P T :=
  match s.replica.getMut k callback now with
  | (some value, replica) => { s with replica := replica }.queueBroadcast R cfg [(k, value)]
  | (none, replica) => { s with replica := replica }

def mutateLive (cfg : EgressConfig V) (s : Egress K V P T) (k : K) (callback : V → V) (now : T) :
    Bool × Egress K V P T :=
  match s.replica.mutateLiveChecked k callback (fun _ => (.ok () : Except ValueTooLarge Unit)) now with
  | (.ok (some value), replica) =>
    (true, { s with replica := replica }.queueBroadcast R cfg [(k, value)])
  | (_, replica) => (false, { s with replica := replica })

def update (cfg : EgressConfig V) (s : Egress K V P T) (k : K) (f : V → V) (now : T) :
    Bool × Egress K V P T :=
  s.mutateLive R cfg k f now

end Register

/-- The error of a call that got no slot, whose counts are read after the failed claim. -/
def rejection (cfg : EgressConfig V) (s : Egress K V P T) : WriteRejected :=
  .backpressure ⟨s.broadcastsInFlight, cfg.maxConcurrentBroadcasts⟩

def tryInsert (cfg : EgressConfig V) (s : Egress K V P T) (key : K) (value : V) (now : T) :
    Except WriteRejected (Option V) × Egress K V P T :=
  match cfg.checkValueSize value with
  | .error err => (.error (.tooLarge err), s)
  | .ok () =>
    match s.tryClaimBroadcastSlot cfg with
    | none => (.error (s.rejection cfg), s)
    | some s' =>
      let inserted := s'.replica.justInsert key (.present now value)
      (.ok (inserted.1.bind Entry.value),
        { s' with replica := inserted.2 }.spawnBroadcast [(key, .present now value)])

def tryUpdate (cfg : EgressConfig V) (s : Egress K V P T) (k : K) (f : V → V) (now : T) :
    Except WriteRejected Bool × Egress K V P T :=
  match s.tryClaimBroadcastSlot cfg with
  | none => (.error (s.rejection cfg), s)
  | some s' =>
    match s'.replica.mutateLiveChecked k f cfg.checkValueSize now with
    | (.ok (some value), replica) =>
      (.ok true, { s' with replica := replica }.spawnBroadcast [(k, value)])
    | (.ok none, replica) => (.ok false, { s' with replica := replica }.dropGuard)
    | (.error err, replica) => (.error (.tooLarge err), { s' with replica := replica }.dropGuard)

end Egress

variable [DecidableEq K] [DecidableEq P]

namespace Replica

theorem getMut_absent {r : Replica K V P T} (h : r.map.lookup k = none) (callback : V → V) (now : T) :
    r.getMut k callback now = (none, r) := by
  rw [getMut, h]

omit [DecidableEq K] [DecidableEq P] in
theorem recordChanges_one_ne (r : Replica K V P T) :
    (r.recordChanges 1).changesSinceSnapshot ≠ r.changesSinceSnapshot := by
  have hlt := Nat.mod_lt (r.changesSinceSnapshot + 1) (show 0 < u64Max + 1 by decide)
  simp only [recordChanges, ne_eq]
  intro he
  rw [he] at hlt
  rcases Nat.lt_or_ge (r.changesSinceSnapshot + 1) (u64Max + 1) with h | h
  · rw [Nat.mod_eq_of_lt h] at he
    omega
  · have hmax : r.changesSinceSnapshot = u64Max := by omega
    rw [hmax, Nat.mod_self] at he
    cases he

theorem mutateLiveChecked_dead {r : Replica K V P T} (h : (r.map.lookup k).bind Entry.value = none)
    (callback : V → V) (validate : V → Except ε Unit) (now : T) :
    r.mutateLiveChecked k callback validate now = (.ok none, r) := by
  rw [mutateLiveChecked, h]

end Replica

namespace Egress

variable [LinearOrder T] (R : Rsos T V)

omit [DecidableEq K] [DecidableEq P] [LinearOrder T] in
theorem broadcast_replica (cfg : EgressConfig V) (s : Egress K V P T)
    (messages : List (K × Entry T V)) : (s.broadcast cfg messages).replica = s.replica := by
  unfold broadcast
  split
  · next s' hs =>
    unfold tryClaimBroadcastSlot at hs
    split at hs
    · cases hs
      rfl
    · cases hs
  · rfl

omit [DecidableEq P] in
theorem queueBroadcast_replica (cfg : EgressConfig V) (s : Egress K V P T)
    (messages : List (K × Entry T V)) : (s.queueBroadcast R cfg messages).replica = s.replica := by
  unfold queueBroadcast
  split
  · rfl
  split
  · rfl
  · exact broadcast_replica cfg s messages

/-- `get_mut` counts a change whenever the map has an entry, live or deleted. -/
theorem getMut_eq_self_iff (cfg : EgressConfig V) (s : Egress K V P T) (k : K) (f : V → V) (now : T) :
    s.getMut R cfg k f now = s ↔ s.replica.map.lookup k = none := by
  constructor
  · intro h
    cases hk : s.replica.map.lookup k with
    | none => rfl
    | some entry =>
      refine absurd ?_ s.replica.recordChanges_one_ne
      have hc := congrArg (fun s => s.replica.changesSinceSnapshot) h
      simp only [getMut, Replica.getMut, hk, queueBroadcast_replica] at hc
      exact hc
  · intro hk
    rw [getMut, Replica.getMut_absent hk]

/-- On an absent or deleted key `update` and `try_update` leave everything as it was: the map with
its stamps, both indexes, the journal, the change counter, and what is broadcast. `get_mut` does so
exactly when the key is absent. -/
theorem dead_key_untouched (cfg : EgressConfig V) (s : Egress K V P T) (k : K) (f : V → V) (now : T)
    (hk : (s.replica.map.lookup k).bind Entry.value = none) :
    (s.getMut R cfg k f now = s ↔ s.replica.map.lookup k = none) ∧
    s.update R cfg k f now = (false, s) ∧
    (s.tryUpdate cfg k f now = (.ok false, s) ∨
      s.tryUpdate cfg k f now = (.error (s.rejection cfg), s)) := by
  refine ⟨s.getMut_eq_self_iff R cfg k f now, ?_, ?_⟩
  · rw [update, mutateLive, Replica.mutateLiveChecked_dead hk]
  · rw [tryUpdate, tryClaimBroadcastSlot]
    split
    · exact .inr rfl
    · next s' hs =>
      split at hs
      · next hlt =>
        cases hs
        left
        rw [Replica.mutateLiveChecked_dead hk]
        simp only
        rw [dropGuard_claimed (Nat.lt_of_lt_of_le hlt cfg.max_le)]
      · cases hs

def oneSlot : EgressConfig Nat where
  maxConcurrentBroadcasts := 1
  max_le := by decide
  maxValueSize := some 100
  encodedSize v := v
  coalescing := false

def latest : Rsos Nat Nat where
  toMerge := Merge.keepLocal Nat Nat
  digest s := match s with
    | .present v => v + 1
    | .tombstone => 0
  entryDigest e := e.stamp

def deletedOne : Egress Nat Nat Nat Nat where
  replica := (Replica.justInsert {} 1 (.tombstone 5)).2

theorem dead_key_untouched_deletedOne :
    deletedOne.update latest oneSlot 1 (· + 1) 9 = (false, deletedOne) ∧
      deletedOne.getMut latest oneSlot 2 (· + 1) 9 = deletedOne :=
  ⟨(dead_key_untouched latest oneSlot deletedOne 1 (· + 1) 9 rfl).2.1,
    (dead_key_untouched latest oneSlot deletedOne 2 (· + 1) 9 rfl).1.2 rfl⟩

/-- `get_mut` stamps the deleted key anew, journals and counts the change, and broadcasts it. -/
theorem getMut_restamps :
    deletedOne.replica.map.lookup 1 = some (.tombstone 5) ∧
    (deletedOne.getMut latest oneSlot 1 id 9).replica.map.lookup 1 = some (.tombstone 9) ∧
    (deletedOne.getMut latest oneSlot 1 id 9).replica.generations.openGeneration.rawChanges = 2 ∧
    deletedOne.replica.changesSinceSnapshot = 1 ∧
    (deletedOne.getMut latest oneSlot 1 id 9).replica.changesSinceSnapshot = 2 ∧
    (deletedOne.getMut latest oneSlot 1 id 9).tasks = [[(1, .tombstone 9)]] := by
  decide +kernel

end Egress

end Reconcile
