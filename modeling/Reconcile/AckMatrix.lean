import Reconcile.Dominance
import Reconcile.Roster

namespace Reconcile
open Lib
set_option autoImplicit true

variable {K V P T : Type} [LinearOrder K] [DecidableEq P]

/-- Every acknowledgement is of the version of the tombstone that its key holds. -/
def CausalState.AcksHeld [LinearOrder T] (R : Rsos T V) (s : CausalState K V P T) : Prop :=
  ∀ k p v, (s.tombstoneAcks.lookup k).bind (·.lookup p) = some v →
    ∃ e, s.entries.lookup k = some e ∧ e.isTombstone = true ∧ R.versionHash e = v

namespace SignedReplica

variable {s : SignedReplica K V P T}

theorem ack_clearAcks (s : SignedReplica K V P T) {c : CausalState K V P T}
    (hc : c.tombstoneAcks = s.tombstoneAcks) (key : K) (p : P) :
    (c.transact (s.clearAcks key)).view (.ack key p) = none := by
  rw [clearAcks]
  split
  · change ((c.tombstoneAcks.erase key).lookup key).bind (·.lookup p) = none
    rw [AList.lookup_erase]
    rfl
  · next h =>
    change (c.tombstoneAcks.lookup key).bind (·.lookup p) = none
    rw [hc, Option.not_isSome_iff_eq_none.1 h]
    rfl

theorem acknowledged_written (s : SignedReplica K V P T) (key : K) (entry : Entry T V) (p : P) :
    (s.recordEntry key entry).acknowledgedVersion key p = none := by
  have h := s.ack_clearAcks (c := s.toCausalState) rfl key p
  rw [recordEntry, SignedReplica.transact, CausalState.transact, List.foldl_append]
  exact h

theorem entries_collected (s : SignedReplica K V P T) (key : K) :
    (s.transact (.physicalDelete key :: s.clearAcks key)).entries = s.entries.erase key := by
  rw [clearAcks]
  split <;> rfl

variable [LinearOrder T] {R : Rsos T V}

end SignedReplica

namespace CausalState.AcksHeld

variable [LinearOrder T] {R : Rsos T V} {s s' : SignedReplica K V P T}

theorem kept (h : s.AcksHeld R)
    (ha : ∀ k p v, s'.acknowledgedVersion k p = some v → s.acknowledgedVersion k p = some v ∧
      s'.entries.lookup k = s.entries.lookup k) : s'.AcksHeld R := by
  intro k p v hv
  obtain ⟨hold, he⟩ := ha k p v hv
  rw [he]
  exact h k p v hold

theorem recordEntry (h : s.AcksHeld R) (key : K) (entry : Entry T V) :
    (s.recordEntry key entry).AcksHeld R := by
  refine h.kept fun k p v hv => ⟨SignedReplica.acknowledged_recordEntry hv, ?_⟩
  have hk : k ≠ key := by
    rintro rfl
    rw [s.acknowledged_written] at hv
    cases hv
  rw [SignedReplica.entries_recordEntry, AList.lookup_insert_ne hk]

theorem decommission (h : s.AcksHeld R) (peer : P) : (s.decommission peer).2.AcksHeld R :=
  h.kept fun _ _ _ hv => ⟨SignedReplica.acknowledged_decommission hv,
    congrArg (AList.lookup _) (s.entries_decommission peer)⟩

theorem applyRemoteEntry (h : s.AcksHeld R) (peer : P) (key : K) (remote : Entry T V) :
    (s.applyRemoteEntry R peer key remote).2.AcksHeld R := by
  rw [SignedReplica.applyRemoteEntry]
  split
  · simp only
    split
    · exact h.recordEntry key _
    · exact h
  · exact h

theorem acceptAck (h : s.AcksHeld R) (peer : P) (key : K) (version : Nat) :
    (s.acceptAck R peer key version).AcksHeld R := by
  intro k p v hv
  rw [s.entries_acceptAck R peer key version]
  rw [SignedReplica.acceptAck] at hv
  split at hv
  · split at hv
    · next entry he =>
      split at hv
      · next hc =>
        rw [Bool.and_eq_true, beq_iff_eq] at hc
        split at hv
        · exact h k p v hv
        · rcases SignedReplica.acknowledged_transact hv with hv | hv
          · exact h k p v hv
          · cases List.mem_singleton.1 hv
            exact ⟨entry, he, hc.1, hc.2⟩
      · exact h k p v hv
    · exact h k p v hv
  · exact h k p v hv

theorem handleVerifiedMessage (h : s.AcksHeld R) (peer : P) (m : SignedMessage K V T) :
    (s.handleVerifiedMessage R peer m).2.AcksHeld R := by
  cases m with
  | hello => exact h
  | update key entry =>
    rw [SignedReplica.handleVerifiedMessage]
    split
    · exact h.applyRemoteEntry peer key entry
    · exact h
  | ack key version => exact h.acceptAck peer key version

theorem collectCandidate (h : s.AcksHeld R) (key : K) :
    (s.collectCandidate R key).2.AcksHeld R := by
  rw [SignedReplica.collectCandidate]
  split
  · exact h
  · refine h.kept fun k p v hv => ?_
    rcases SignedReplica.acknowledged_transact hv with hold | hm
    · refine ⟨hold, ?_⟩
      have hk : k ≠ key := by
        rintro rfl
        have hn := s.ack_clearAcks (c := s.toCausalState.mutate (.physicalDelete k)) rfl k p
        cases hv.symm.trans hn
      simp only [s.entries_collected, AList.lookup_erase_ne hk]
    · rcases List.mem_cons.1 hm with hm | hm
      · cases hm
      · exact absurd hm (s.not_mem_clearAcks key k p v)

end CausalState.AcksHeld

theorem SignedReplica.Rostered.collectCandidate [LinearOrder T] {R : Rsos T V}
    {s : SignedReplica K V P T} (h : s.Rostered) (key : K) :
    (s.collectCandidate R key).2.Rostered := by
  rw [SignedReplica.collectCandidate]
  split
  · exact h
  · next hc =>
    rw [Bool.not_eq_true, Bool.or_eq_false_iff] at hc
    refine h.transact ?_ ?_ fun hr => absurd (hc.1.symm.trans hr) Bool.false_ne_true
    · rw [List.all_cons, SignedReplica.sparesMembers_clearAcks]
      rfl
    · intro k p v hk
      rcases List.mem_cons.1 hk with hk | hk
      · cases hk
      · exact absurd hk (s.not_mem_clearAcks key k p v)

/-- What may happen to the acknowledgements: also the collection behind the public gate, which
never opens it. -/
inductive AckEvent (K V P : Type) where
  | causal (ev : CausalEvent K V P)
  | collectCandidate (key : K)

namespace SignedCausal

variable {H : HlcArithmetic} {R : Rsos Timestamp V}
  {fits : K → Entry Timestamp V → Except SignedError Unit} {s : SignedCausal K V P}

def ackStep (H : HlcArithmetic) (fits : K → Entry Timestamp V → Except SignedError Unit)
    (R : Rsos Timestamp V) (s : SignedCausal K V P) : AckEvent K V P → SignedCausal K V P
  | .causal ev => s.step H fits R ev
  | .collectCandidate key =>
    { s with toSignedReplica := (s.toSignedReplica.collectCandidate R key).2 }

theorem acksHeld_step (h : s.AcksHeld R) (ev : CausalEvent K V P) :
    (s.step H fits R ev).AcksHeld R := by
  cases ev with
  | write w pt =>
    rw [step]
    rcases s.write_cases (H := H) w pt with ⟨err, he⟩ | ⟨err, he⟩ | ⟨_, he⟩ <;> rw [he]
    · exact h
    · exact h
    · exact h.recordEntry w.key _
  | message peer m pt => exact h.handleVerifiedMessage peer m
  | decommission peer => exact h.decommission peer
  | collect key => exact h
  | journal generations => exact h

theorem acksHeld_restore {roles : SignedRoles P} {loaded : Option (PersistedState K V P Timestamp)}
    (h : restore H roles c readings loaded = .ok s)
    (hl : ∀ saved, loaded = some saved → saved.toCausal.AcksHeld R) : s.AcksHeld R := by
  obtain ⟨entries, clock', hload, -, -, rfl⟩ := restore_eq_ok h
  obtain ⟨-, -, rfl⟩ := loadEntries_eq_ok hload
  cases loaded with
  | none =>
    intro k p v hv
    cases hv
  | some saved => exact hl saved rfl

/-- In every run from a snapshot whose acknowledgements are exact, every acknowledgement is by a
member, of the tombstone its key holds, in the version held. -/
theorem ack_matrix_exact {roles : SignedRoles P} {c : HlcClock}
    {loaded : Option (PersistedState K V P Timestamp)} {s₀ : SignedCausal K V P}
    (h₀ : restore H roles c readings loaded = .ok s₀)
    (hl : ∀ saved, loaded = some saved → saved.toCausal.AcksHeld R)
    (es : List (AckEvent K V P)) {k : K} {p : P} {v : Nat}
    (hv : (es.foldl (ackStep H fits R) s₀).acknowledgedVersion k p = some v) :
    (es.foldl (ackStep H fits R) s₀).members.contains p = true ∧
      ∃ e, (es.foldl (ackStep H fits R) s₀).entries.lookup k = some e ∧
        e.isTombstone = true ∧ R.versionHash e = v := by
  have hs : (es.foldl (ackStep H fits R) s₀).Rostered ∧
      (es.foldl (ackStep H fits R) s₀).AcksHeld R := by
    refine List.foldlRecOn (motive := fun s : SignedCausal K V P =>
        s.Rostered ∧ s.AcksHeld R) es _
      ⟨rostered_restore h₀, acksHeld_restore h₀ hl⟩ ?_
    rintro s ⟨hr, ha⟩ ev -
    cases ev with
    | causal ev => exact ⟨rostered_step hr ev, acksHeld_step ha ev⟩
    | collectCandidate key => exact ⟨hr.collectCandidate key, ha.collectCandidate key⟩
  exact ⟨hs.1.acks k p (Option.isSome_iff_exists.2 ⟨v, hv⟩), hs.2 k p v hv⟩

def acknowledgedSnapshot : PersistedState Nat Nat Nat Timestamp where
  entries := [(1, .tombstone ⟨⟨500, 0⟩, 7⟩)]
  members := soleAuthority.authorities
  tombstoneAcks := AList.insert 1 (AList.insert 7 500 ∅) ∅

def acknowledgedNode : SignedCausal Nat Nat Nat where
  entries := AList.insert 1 (.tombstone ⟨⟨500, 0⟩, 7⟩) ∅
  members := soleAuthority.authorities
  tombstoneAcks := acknowledgedSnapshot.tombstoneAcks
  authorities := soleAuthority.authorities
  clock := HlcClock.observeTrusted .standard { nodeId := 1 } ⟨⟨500, 0⟩, 7⟩ 0

theorem acknowledgedNode_restored :
    restore .standard soleAuthority { nodeId := 1 } (fun _ => 0) (some acknowledgedSnapshot) =
      .ok acknowledgedNode := rfl

theorem acksHeld_acknowledgedSnapshot : acknowledgedSnapshot.toCausal.AcksHeld register := by
  intro k p v hv
  simp only [PersistedState.toCausal, acknowledgedSnapshot, HashMap.lookup_insert_eq,
    AList.lookup_empty] at hv
  split at hv
  · next hk =>
    subst hk
    simp only [Option.bind_some, HashMap.lookup_insert_eq, AList.lookup_empty] at hv
    split at hv
    · cases hv
      exact ⟨_, rfl, rfl, rfl⟩
    · cases hv
  · cases hv

/-- The authority deletes the key again, later, and acknowledges the newer tombstone. -/
def deletedAgain : List (AckEvent Nat Nat Nat) :=
  [.causal (.message 7 (.update 1 (.tombstone ⟨⟨900, 0⟩, 7⟩)) 1000),
    .causal (.message 7 (.ack 1 500) 1000), .causal (.message 7 (.ack 1 900) 1000)]

theorem ack_matrix_exact_deleted_again :
    acknowledgedNode.acknowledgedVersion 1 7 = some 500 ∧
      (deletedAgain.foldl (ackStep .standard unlimited register)
        acknowledgedNode).acknowledgedVersion 1 7 = some 900 ∧
      ∃ e, (deletedAgain.foldl (ackStep .standard unlimited register)
        acknowledgedNode).entries.lookup 1 = some e ∧
        e.isTombstone = true ∧ register.versionHash e = 900 := by
  have hv : (deletedAgain.foldl (ackStep .standard unlimited register)
      acknowledgedNode).acknowledgedVersion 1 7 = some 900 := by decide +kernel
  refine ⟨rfl, hv, (ack_matrix_exact acknowledgedNode_restored ?_ deletedAgain hv).2⟩
  rintro saved ⟨⟩
  exact acksHeld_acknowledgedSnapshot

end SignedCausal

end Reconcile
