import Reconcile.Journal
import Reconcile.Replica

namespace Reconcile
open Lib
set_option autoImplicit true

inductive SignedError where
  | readOnlyWrite
  | readOnlyDelete
  | recordTooLong
  | tooManyFragments
  deriving DecidableEq, Repr

inductive SignedMessage (K V T : Type) where
  | hello
  | update (key : K) (entry : Entry T V)
  | ack (key : K) (version : Nat)
  deriving DecidableEq

structure SignedReplica (K V P T : Type) extends CausalState K V P T where
  generations : GenerationState K V P T := {}
  authorities : HashSet P := ∅
  readers : HashSet P := ∅
  readOnly : Bool := false

variable {K V P T : Type} [LinearOrder K] [DecidableEq P]

namespace SignedReplica

def transact (s : SignedReplica K V P T) (tx : Transaction K V P T) : SignedReplica K V P T :=
  { s with
    toCausalState := s.toCausalState.transact tx
    generations := s.generations.transact tx }

/-- Removing a key's acks is journaled only when there are some. -/
def clearAcks (s : SignedReplica K V P T) (key : K) : Transaction K V P T :=
  if s.tombstoneAcks.contains key then [.ackKeyClear key] else []

def recordEntry (s : SignedReplica K V P T) (key : K) (entry : Entry T V) :
    SignedReplica K V P T :=
  s.transact (s.clearAcks key ++ [.entry key entry])

/-- `fits` is the verdict of `ensure_entry_fits`. -/
def insert (s : SignedReplica K V P T) (fits : K → Entry T V → Except SignedError Unit) (key : K)
    (value : V) (now : T) : Except SignedError (SignedReplica K V P T) := do
  if s.readOnly then throw .readOnlyWrite
  fits key (.present now value)
  return s.recordEntry key (.present now value)

def remove (s : SignedReplica K V P T) (fits : K → Entry T V → Except SignedError Unit) (key : K)
    (now : T) : Except SignedError (SignedReplica K V P T) := do
  if s.readOnly then throw .readOnlyDelete
  fits key (.tombstone now)
  return s.recordEntry key (.tombstone now)

def acknowledgedVersion (s : SignedReplica K V P T) (key : K) (peer : P) : Option Nat :=
  (s.tombstoneAcks.lookup key).bind (·.lookup peer)

def decommission (s : SignedReplica K V P T) (peer : P) : Bool × SignedReplica K V P T :=
  let removed := s.members.contains peer
  let acked := s.tombstoneAcks.keys.filter fun key => (s.acknowledgedVersion key peer).isSome
  let tx := (if removed then [.member peer false] else []) ++
    acked.map fun key => .ack key peer none
  (removed, { s.transact tx with
    readers := s.readers.erase peer
    authorities := s.authorities.erase peer })

def hasCollectionProof : Bool := false

section Register

variable [LinearOrder T] (R : Rsos T V)

def mergedEntry (s : SignedReplica K V P T) (key : K) (remote : Entry T V) : Entry T V :=
  match s.entries.lookup key with
  | some localV => R.merge localV remote
  | none => remote

/-- The result is the version of the tombstone held afterwards. -/
def applyRemoteEntry (s : SignedReplica K V P T) (peer : P) (key : K) (remote : Entry T V) :
    Option Nat × SignedReplica K V P T :=
  if s.authorities.contains peer then
    let merged := s.mergedEntry R key remote
    let changed := (s.entries.lookup key).all fun localV =>
      R.entryDigest localV != R.entryDigest merged
    let s' := if changed then s.recordEntry key merged else s
    (((s'.entries.lookup key).filter Entry.isTombstone).map R.versionHash, s')
  else (none, s)

def acceptAck (s : SignedReplica K V P T) (peer : P) (key : K) (version : Nat) :
    SignedReplica K V P T :=
  if s.members.contains peer then
    match s.entries.lookup key with
    | some entry =>
      if entry.isTombstone && R.versionHash entry == version then
        if s.acknowledgedVersion key peer = some version then s
        else s.transact [.ack key peer (some version)]
      else s
    | none => s
  else s

def isTombstoneStable (s : SignedReplica K V P T) (key : K) : Bool :=
  match s.entries.lookup key with
  | some entry =>
    entry.isTombstone && s.members.keys.all fun id =>
      s.acknowledgedVersion key id == some (R.versionHash entry)
  | none => false

def collectCandidate (s : SignedReplica K V P T) (key : K) : Bool × SignedReplica K V P T :=
  if s.readOnly || !s.isTombstoneStable R key then (false, s)
  else (true, s.transact (.physicalDelete key :: s.clearAcks key))

def collectIfStable (s : SignedReplica K V P T) (key : K) : Bool × SignedReplica K V P T :=
  if hasCollectionProof then s.collectCandidate R key else (false, s)

/-- A message whose signer is verified; the result is the reply to it. -/
def handleVerifiedMessage (s : SignedReplica K V P T) (peer : P) :
    SignedMessage K V T → Option (SignedMessage K V T) × SignedReplica K V P T
  | .hello => (none, s)
  | .update key entry =>
    if s.authorities.contains peer then
      let applied := s.applyRemoteEntry R peer key entry
      (if s.readOnly then none else applied.1.map (.ack key), applied.2)
    else (none, s)
  | .ack key version => (none, s.acceptAck R peer key version)

end Register

theorem ack_mutate {s : CausalState K V P T} {m : Mutation K V P T} {k : K} {p : P} {v : Nat}
    (h : (s.mutate m).view (.ack k p) = some v) :
    s.view (.ack k p) = some v ∨ m = .ack k p (some v) := by
  rw [CausalState.view_mutate, Overlay.apply] at h
  cases m with
  | ack key peer version =>
    simp only [Mutation.patch] at h
    split at h
    · next hc =>
      obtain ⟨rfl, rfl⟩ := hc
      cases h
      exact .inr rfl
    · exact .inl h
  | ackKeyClear key =>
    simp only [Mutation.patch] at h
    split at h
    · cases h
    · exact .inl h
  | entry key e => exact .inl h
  | physicalDelete key => exact .inl h
  | member peer present => exact .inl h

theorem ack_transact {s : CausalState K V P T} {tx : Transaction K V P T} {k : K} {p : P} {v : Nat}
    (h : (s.transact tx).view (.ack k p) = some v) :
    s.view (.ack k p) = some v ∨ .ack k p (some v) ∈ tx := by
  induction tx generalizing s with
  | nil => exact .inl h
  | cons m tx ih =>
    rcases ih h with h | h
    · rcases ack_mutate h with h | h
      · exact .inl h
      · rw [h]
        exact .inr List.mem_cons_self
    · exact .inr (List.mem_cons_of_mem _ h)

theorem acknowledged_transact {s : SignedReplica K V P T} {tx : Transaction K V P T} {k : K} {p : P}
    {v : Nat} (h : (s.transact tx).acknowledgedVersion k p = some v) :
    s.acknowledgedVersion k p = some v ∨ .ack k p (some v) ∈ tx :=
  ack_transact h

omit [DecidableEq P] in
theorem not_mem_clearAcks (s : SignedReplica K V P T) (key k : K) (p : P) (v : Nat) :
    .ack k p (some v) ∉ s.clearAcks key := by
  rw [clearAcks]
  split
  · intro h
    cases List.mem_singleton.1 h
  · exact List.not_mem_nil

theorem acknowledged_recordEntry {s : SignedReplica K V P T}
    (h : (s.recordEntry key entry).acknowledgedVersion k p = some v) :
    s.acknowledgedVersion k p = some v := by
  rcases acknowledged_transact h with h | h
  · exact h
  · rcases List.mem_append.1 h with h | h
    · exact absurd h (s.not_mem_clearAcks key k p v)
    · cases List.mem_singleton.1 h

theorem insert_eq_ok {s s' : SignedReplica K V P T} (h : s.insert fits key value now = .ok s') :
    fits key (.present now value) = .ok () ∧ s' = s.recordEntry key (.present now value) := by
  rw [insert] at h
  split at h
  · cases h
  · cases hf : fits key (.present now value) with
    | error err =>
      rw [hf] at h
      cases h
    | ok u =>
      rw [hf] at h
      cases h
      exact ⟨rfl, rfl⟩

theorem remove_eq_ok {s s' : SignedReplica K V P T} (h : s.remove fits key now = .ok s') :
    fits key (.tombstone now) = .ok () ∧ s' = s.recordEntry key (.tombstone now) := by
  rw [remove] at h
  split at h
  · cases h
  · cases hf : fits key (.tombstone now) with
    | error err =>
      rw [hf] at h
      cases h
    | ok u =>
      rw [hf] at h
      cases h
      exact ⟨rfl, rfl⟩

theorem acknowledged_decommission {s : SignedReplica K V P T}
    (h : (s.decommission peer).2.acknowledgedVersion k p = some v) :
    s.acknowledgedVersion k p = some v := by
  rcases acknowledged_transact h with h | h
  · exact h
  · rcases List.mem_append.1 h with h | h
    · split at h
      · cases List.mem_singleton.1 h
      · cases h
    · obtain ⟨key, _, hk⟩ := List.mem_map.1 h
      cases hk

variable [LinearOrder T] {R : Rsos T V} {s : SignedReplica K V P T}

theorem acknowledged_applyRemoteEntry
    (h : (s.applyRemoteEntry R peer key remote).2.acknowledgedVersion k p = some v) :
    s.acknowledgedVersion k p = some v := by
  rw [applyRemoteEntry] at h
  split at h
  · simp only at h
    split at h
    · exact acknowledged_recordEntry h
    · exact h
  · exact h

theorem acknowledged_acceptAck
    (h : (s.acceptAck R peer key version).acknowledgedVersion k p = some v) :
    s.acknowledgedVersion k p = some v ∨ (k = key ∧ p = peer ∧ v = version) := by
  rw [acceptAck] at h
  split at h
  · split at h
    · split at h
      · split at h
        · exact .inl h
        · rcases acknowledged_transact h with h | h
          · exact .inl h
          · cases List.mem_singleton.1 h
            exact .inr ⟨rfl, rfl, rfl⟩
      · exact .inl h
    · exact .inl h
  · exact .inl h

/-- A node gains an acknowledgement only from an `Ack` message of the peer it is kept for. -/
theorem acknowledged_handleVerifiedMessage
    (h : (s.handleVerifiedMessage R peer m).2.acknowledgedVersion k p = some v) :
    s.acknowledgedVersion k p = some v ∨ (p = peer ∧ m = .ack k v) := by
  cases m with
  | hello => exact .inl h
  | update key entry =>
    rw [handleVerifiedMessage] at h
    split at h
    · exact .inl (acknowledged_applyRemoteEntry h)
    · exact .inl h
  | ack key version =>
    rcases acknowledged_acceptAck h with h | ⟨rfl, rfl, rfl⟩
    · exact .inl h
    · exact .inr ⟨rfl, rfl⟩

/-- A node acknowledges only the version of a tombstone it holds once the message is handled. -/
theorem handleVerifiedMessage_ack
    (h : (s.handleVerifiedMessage R peer m).1 = some (.ack k v)) :
    ∃ e, (s.handleVerifiedMessage R peer m).2.entries.lookup k = some e ∧
      e.isTombstone = true ∧ R.versionHash e = v := by
  cases m with
  | hello => cases h
  | update key entry =>
    rw [handleVerifiedMessage] at h ⊢
    split at h
    · next hp =>
      rw [if_pos hp]
      simp only at h ⊢
      split at h
      · cases h
      · obtain ⟨version, hv, he⟩ := Option.map_eq_some_iff.1 h
        cases he
        rw [applyRemoteEntry, if_pos hp] at hv ⊢
        obtain ⟨e, he, hv⟩ := Option.map_eq_some_iff.1 hv
        obtain ⟨he, ht⟩ := Option.filter_eq_some_iff.1 he
        exact ⟨e, he, ht, hv⟩
    · cases h
  | ack key version => cases h

theorem isTombstoneStable_eq_true (h : s.isTombstoneStable R k = true) :
    ∃ e, s.entries.lookup k = some e ∧ e.isTombstone = true ∧
      ∀ p ∈ s.members, s.acknowledgedVersion k p = some (R.versionHash e) := by
  rw [isTombstoneStable] at h
  split at h
  · next e he =>
    rw [Bool.and_eq_true, List.all_eq_true] at h
    refine ⟨e, he, h.1, ?_⟩
    intro p hp
    exact eq_of_beq (h.2 p (AList.mem_keys.2 hp))
  · cases h

end SignedReplica

end Reconcile
