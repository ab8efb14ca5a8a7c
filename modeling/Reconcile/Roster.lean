import Reconcile.SignedCausal

namespace Reconcile
open Lib
set_option autoImplicit true

variable {K V P T : Type} [LinearOrder K] [DecidableEq P]

def Mutation.sparesMembers : Mutation K V P T → Bool
  | .member _ _ => false
  | _ => true

namespace CausalState

theorem members_mutate {m : Mutation K V P T} (h : m.sparesMembers = true)
    (s : CausalState K V P T) : (s.mutate m).members = s.members := by
  cases m with
  | member peer present => cases h
  | ack key peer version =>
    cases version with
    | some v => rfl
    | none =>
      rw [mutate]
      split <;> rfl
  | _ => rfl

theorem members_transact {tx : Transaction K V P T} (h : tx.all Mutation.sparesMembers = true)
    (s : CausalState K V P T) : (s.transact tx).members = s.members := by
  induction tx generalizing s with
  | nil => rfl
  | cons m tx ih =>
    rw [List.all_cons, Bool.and_eq_true] at h
    exact (ih h.2 _).trans (members_mutate h.1 s)

theorem ack_dropped (keys : List K) (peer : P) (s : CausalState K V P T) (k : K) :
    (s.transact (keys.map fun key => .ack key peer none)).view (.ack k peer) =
      if k ∈ keys then none else s.view (.ack k peer) := by
  induction keys generalizing s with
  | nil => rfl
  | cons key keys ih =>
    rw [List.map_cons]
    refine (ih (s.mutate (.ack key peer none))).trans ?_
    rw [view_mutate, Overlay.apply]
    by_cases hk : k = key
    · subst hk
      simp only [Mutation.patch, List.mem_cons, true_or, ↓reduceIte, and_self, Option.getD_some,
        ite_self]
    · simp only [Mutation.patch, hk, List.mem_cons, false_or, ↓reduceIte, false_and,
        Option.getD_none]

end CausalState

namespace SignedReplica

/-- The members are the authorities, none on a read-only node, and only members have
acknowledgements; a read-only node keeps no record of any. -/
structure Rostered (s : SignedReplica K V P T) : Prop where
  members : ∀ p, s.members.contains p = (!s.readOnly && s.authorities.contains p)
  acks : ∀ k p, (s.acknowledgedVersion k p).isSome = true → s.members.contains p = true
  readOnly : s.readOnly = true → s.tombstoneAcks = ∅

variable {s s' : SignedReplica K V P T}

theorem Rostered.authority (h : s.Rostered) (hp : s.members.contains p = true) :
    s.authorities.contains p = true := by
  rw [h.members, Bool.and_eq_true] at hp
  exact hp.2

theorem Rostered.transact (h : s.Rostered) {tx : Transaction K V P T}
    (hm : tx.all Mutation.sparesMembers = true)
    (ha : ∀ k p v, .ack k p (some v) ∈ tx → s.members.contains p = true)
    (hr : s.readOnly = true → (s.toCausalState.transact tx).tombstoneAcks = ∅) :
    (s.transact tx).Rostered := by
  have hmembers : (s.transact tx).members = s.members :=
    CausalState.members_transact hm s.toCausalState
  refine ⟨?_, ?_, hr⟩
  · rw [hmembers]
    exact h.members
  · intro k p hk
    rw [hmembers]
    obtain ⟨v, hv⟩ := Option.isSome_iff_exists.1 hk
    rcases acknowledged_transact hv with hv | hv
    · exact h.acks k p (Option.isSome_iff_exists.2 ⟨v, hv⟩)
    · exact ha k p v hv

omit [DecidableEq P] in
theorem clearAcks_of_empty (h : s.tombstoneAcks = ∅) (key : K) : s.clearAcks key = [] := by
  rw [clearAcks, h]
  rfl

omit [DecidableEq P] in
theorem sparesMembers_clearAcks (s : SignedReplica K V P T) (key : K) :
    (s.clearAcks key).all Mutation.sparesMembers = true := by
  rw [clearAcks]
  split <;> rfl

theorem Rostered.recordEntry (h : s.Rostered) (key : K) (entry : Entry T V) :
    (s.recordEntry key entry).Rostered := by
  refine h.transact ?_ ?_ ?_
  · rw [List.all_append, sparesMembers_clearAcks]
    rfl
  · intro k p v hk
    rcases List.mem_append.1 hk with hk | hk
    · exact absurd hk (s.not_mem_clearAcks key k p v)
    · cases List.mem_singleton.1 hk
  · intro hr
    rw [clearAcks_of_empty (h.readOnly hr)]
    exact h.readOnly hr

theorem mem_acked (s : SignedReplica K V P T) (peer : P) (k : K) :
    k ∈ s.tombstoneAcks.keys.filter (fun key => (s.acknowledgedVersion key peer).isSome) ↔
      (s.acknowledgedVersion k peer).isSome = true := by
  rw [List.mem_filter, and_iff_right_iff_imp]
  intro h
  apply (HashMap.contains_iff_mem s.tombstoneAcks k).1
  rw [acknowledgedVersion] at h
  rw [HashMap.contains]
  cases hk : s.tombstoneAcks.lookup k with
  | none =>
    rw [hk] at h
    cases h
  | some acks => rfl

theorem acknowledged_decommissioned (s : SignedReplica K V P T) (peer : P) (k : K) :
    (s.decommission peer).2.acknowledgedVersion k peer = none := by
  -- the member mutation in front leaves the acknowledgements as they are
  have hfront : (s.toCausalState.transact (if s.members.contains peer then [.member peer false]
      else [])).view (.ack k peer) = s.acknowledgedVersion k peer := by
    split <;> rfl
  change (s.toCausalState.transact _).view (.ack k peer) = none
  rw [CausalState.transact, List.foldl_append]
  refine (CausalState.ack_dropped _ peer _ k).trans ?_
  split
  · rfl
  · next h =>
    rw [mem_acked] at h
    exact hfront.trans (Option.not_isSome_iff_eq_none.1 h)

theorem members_decommission (s : SignedReplica K V P T) (peer p : P) :
    (s.decommission peer).2.members.contains p = (s.members.contains p && decide (p ≠ peer)) := by
  have hspares (keys : List K) : (keys.map fun key => (.ack key peer none : Mutation K V P T)).all
      Mutation.sparesMembers = true := by
    rw [List.all_map]
    exact List.all_eq_true.2 fun _ _ => rfl
  have hmembers : (s.decommission peer).2.members =
      (s.toCausalState.transact (if s.members.contains peer then [.member peer false]
        else [])).members := by
    simp only [decommission, transact]
    rw [CausalState.transact, List.foldl_append]
    exact CausalState.members_transact (hspares _) _
  rw [hmembers]
  split
  · exact HashMap.contains_erase s.members peer p
  · next h =>
    change s.members.contains p = _
    by_cases hp : p = peer
    · subst hp
      rw [Bool.eq_false_iff.2 h]
      rfl
    · rw [decide_eq_true hp, Bool.and_true]

/-- A retired peer leaves the authorities, the members and every acknowledgement. -/
theorem Rostered.decommission (h : s.Rostered) (peer : P) : (s.decommission peer).2.Rostered := by
  refine ⟨?_, ?_, ?_⟩
  · intro p
    rw [members_decommission, h.members, Bool.and_assoc]
    exact congrArg (!s.readOnly && ·) (HashMap.contains_erase s.authorities peer p).symm
  · intro k p hk
    obtain ⟨v, hv⟩ := Option.isSome_iff_exists.1 hk
    rw [members_decommission, h.acks k p (Option.isSome_iff_exists.2 ⟨v, acknowledged_decommission hv⟩),
      Bool.true_and, decide_eq_true_eq]
    rintro rfl
    rw [acknowledged_decommissioned] at hv
    cases hv
  · intro hr
    have he : s.tombstoneAcks = ∅ := h.readOnly hr
    simp only [SignedReplica.decommission, SignedReplica.transact, he]
    change (s.toCausalState.transact (_ ++ [])).tombstoneAcks = ∅
    rw [List.append_nil]
    split <;> exact he

variable [LinearOrder T] (R : Rsos T V)

theorem Rostered.acceptAck (h : s.Rostered) (peer : P) (key : K) (version : Nat) :
    (s.acceptAck R peer key version).Rostered := by
  rw [SignedReplica.acceptAck]
  split
  · next hp =>
    have hr : s.readOnly = false := by
      rw [h.members, Bool.and_eq_true, Bool.not_eq_true'] at hp
      exact hp.1
    split
    · split
      · split
        · exact h
        · refine h.transact rfl ?_ fun hr' => absurd (hr.symm.trans hr') Bool.false_ne_true
          intro k p v hk
          cases List.mem_singleton.1 hk
          exact hp
      · exact h
    · exact h
  · exact h

theorem Rostered.applyRemoteEntry (h : s.Rostered) (peer : P) (key : K) (remote : Entry T V) :
    (s.applyRemoteEntry R peer key remote).2.Rostered := by
  rw [SignedReplica.applyRemoteEntry]
  split
  · simp only
    split
    · exact h.recordEntry key _
    · exact h
  · exact h

theorem Rostered.handleVerifiedMessage (h : s.Rostered) (peer : P) (m : SignedMessage K V T) :
    (s.handleVerifiedMessage R peer m).2.Rostered := by
  cases m with
  | hello => exact h
  | update key entry =>
    rw [SignedReplica.handleVerifiedMessage]
    split
    · exact h.applyRemoteEntry R peer key entry
    · exact h
  | ack key version => exact h.acceptAck R peer key version

theorem roles_applyRemoteEntry (s : SignedReplica K V P T) (peer : P) (key : K)
    (remote : Entry T V) :
    ((s.applyRemoteEntry R peer key remote).2.readOnly,
      (s.applyRemoteEntry R peer key remote).2.authorities) = (s.readOnly, s.authorities) := by
  rw [SignedReplica.applyRemoteEntry]
  split
  · simp only
    split <;> rfl
  · rfl

theorem roles_handleVerifiedMessage (s : SignedReplica K V P T) (peer : P)
    (m : SignedMessage K V T) :
    ((s.handleVerifiedMessage R peer m).2.readOnly,
      (s.handleVerifiedMessage R peer m).2.authorities) = (s.readOnly, s.authorities) := by
  cases m with
  | hello => rfl
  | update key entry =>
    rw [SignedReplica.handleVerifiedMessage]
    split
    · exact s.roles_applyRemoteEntry R peer key entry
    · rfl
  | ack key version =>
    rw [SignedReplica.handleVerifiedMessage, SignedReplica.acceptAck]
    split
    · split
      · split
        · split <;> rfl
        · rfl
      · rfl
    · rfl

end SignedReplica

namespace SignedRoles

theorem contains_members (roles : SignedRoles P) (p : P) :
    roles.members.contains p = (!roles.readOnly && roles.authorities.contains p) := by
  rw [members]
  cases roles.readOnly <;> rfl

omit [LinearOrder K] in
/-- A snapshot belongs to a roster if it has the members of the roster, and no acknowledgements if
the node is read-only. -/
theorem differs_eq_false (roles : SignedRoles P) (saved : PersistedState K V P Timestamp) :
    roles.differs saved = false ↔ (∀ p, saved.members.contains p = roles.members.contains p) ∧
      (roles.readOnly = true → saved.tombstoneAcks = ∅) := by
  simp only [contains_members]
  cases hr : roles.readOnly with
  | true =>
    simp only [differs, hr, ↓reduceIte, Bool.or_eq_false_iff, Bool.not_eq_false', List.isEmpty_iff,
      Bool.not_true, Bool.false_and, forall_const]
    refine and_congr ⟨?_, ?_⟩ ⟨fun h => AList.ext h, fun h => congrArg AList.entries h⟩
    · intro h p
      rw [HashMap.contains, lookup_of_isEmpty (List.isEmpty_iff.2 h)]
      rfl
    · intro h
      exact congrArg AList.entries
        (HashMap.eq_empty_of_lookup fun p => Option.not_isSome_iff_eq_none.1 (Bool.eq_false_iff.1 (h p)))
  | false =>
    simp only [differs, hr, Bool.false_eq_true, ↓reduceIte, Bool.not_eq_false', Bool.and_eq_true,
      List.all_eq_true, Bool.not_false, Bool.true_and, false_implies, and_true]
    constructor
    · rintro ⟨h, h'⟩ p
      apply Bool.eq_iff_iff.2
      exact ⟨fun hp => h p ((HashMap.contains_iff_mem _ p).1 hp),
        fun hp => h' p ((HashMap.contains_iff_mem _ p).1 hp)⟩
    · intro h
      exact ⟨fun p hp => (h p).symm.trans ((HashMap.contains_iff_mem _ p).2 hp),
        fun p hp => (h p).trans ((HashMap.contains_iff_mem _ p).2 hp)⟩

theorem coversBlockers_eq_true (roles : SignedRoles P) (saved : PersistedState K V P Timestamp) :
    roles.coversBlockers saved = true ↔
      (∀ p, saved.members.contains p = true → roles.authorities.contains p = true) ∧
      ∀ k p, ((saved.tombstoneAcks.lookup k).bind (·.lookup p)).isSome = true →
        roles.authorities.contains p = true := by
  rw [coversBlockers, Bool.and_eq_true, List.all_eq_true, List.all_eq_true]
  refine and_congr ⟨?_, ?_⟩ ⟨?_, ?_⟩
  · intro h p hp
    exact h p ((HashMap.contains_iff_mem _ p).1 hp)
  · intro h p hp
    exact h p ((HashMap.contains_iff_mem _ p).2 hp)
  · intro h k p hp
    cases hl : saved.tombstoneAcks.lookup k with
    | none =>
      rw [hl] at hp
      cases hp
    | some acks =>
      rw [hl, Option.bind_some] at hp
      have hacks := h (k, acks) ((HashMap.mem_toList _ _ _).2 hl)
      exact List.all_eq_true.1 hacks p ((HashMap.contains_iff_mem acks p).1 hp)
  · rintro h ⟨k, acks⟩ hk
    refine List.all_eq_true.2 fun p hp => h k p ?_
    rw [(HashMap.mem_toList _ _ _).1 hk, Option.bind_some]
    exact (HashMap.contains_iff_mem acks p).2 hp

end SignedRoles

namespace SignedCausal

variable {s : SignedCausal K V P} {H : HlcArithmetic} {R : Rsos Timestamp V}
  {fits : K → Entry Timestamp V → Except SignedError Unit}

theorem rostered_step (h : s.Rostered) (ev : CausalEvent K V P) : (s.step H fits R ev).Rostered := by
  cases ev with
  | write w pt =>
    rw [step]
    rcases s.write_cases (H := H) w pt with ⟨err, he⟩ | ⟨err, he⟩ | ⟨_, he⟩
    · rw [he]
      exact h
    · rw [he]
      exact h
    · rw [he]
      exact h.recordEntry w.key _
  | message peer m pt => exact h.handleVerifiedMessage R peer m
  | decommission peer => exact h.decommission peer
  | collect key => exact h
  | journal generations => exact ⟨h.members, h.acks, h.readOnly⟩

/-- A node stays read-only or not, and nobody becomes an authority. -/
theorem roles_step (s : SignedCausal K V P) (ev : CausalEvent K V P) :
    (s.step H fits R ev).readOnly = s.readOnly ∧
      ∀ p, (s.step H fits R ev).authorities.contains p = true → s.authorities.contains p = true := by
  cases ev with
  | write w pt =>
    rw [step]
    rcases s.write_cases (H := H) w pt with ⟨err, he⟩ | ⟨err, he⟩ | ⟨_, he⟩ <;> rw [he]
    · exact ⟨rfl, fun _ h => h⟩
    · exact ⟨rfl, fun _ h => h⟩
    · exact ⟨rfl, fun _ h => h⟩
  | message peer m pt =>
    obtain ⟨hr, ha⟩ := Prod.mk.inj (s.toSignedReplica.roles_handleVerifiedMessage R peer m)
    refine ⟨hr, fun p hp => ?_⟩
    rw [← ha]
    exact hp
  | decommission peer =>
    refine ⟨rfl, fun p hp => ?_⟩
    have hp' : HashMap.contains (s.authorities.erase peer) p = true := hp
    rw [HashMap.contains_erase, Bool.and_eq_true] at hp'
    exact hp'.1
  | collect key => exact ⟨rfl, fun _ h => h⟩
  | journal generations => exact ⟨rfl, fun _ h => h⟩

theorem acknowledged_of_empty {s : SignedReplica K V P T} (h : s.tombstoneAcks = ∅) (k : K) (p : P) :
    s.acknowledgedVersion k p = none := by
  rw [SignedReplica.acknowledgedVersion, h, AList.lookup_empty]
  rfl

theorem rostered_restore {roles : SignedRoles P} (h : restore H roles c readings loaded = .ok s) :
    s.Rostered := by
  obtain ⟨entries, clock', _, hdiffers, hcovers, rfl⟩ := restore_eq_ok h
  have hidle : roles.readOnly = true → (loaded.getD ⟨[], ∅, ∅⟩).tombstoneAcks = ∅ := by
    cases loaded with
    | none => exact fun _ => rfl
    | some saved => exact ((roles.differs_eq_false saved).1 (hdiffers rfl)).2
  refine ⟨roles.contains_members, ?_, hidle⟩
  intro k p hk
  rw [roles.contains_members]
  cases hr : roles.readOnly with
  | true =>
    rw [acknowledged_of_empty (hidle hr)] at hk
    cases hk
  | false => exact ((roles.coversBlockers_eq_true _).1 hcovers).2 k p hk

end SignedCausal

end Reconcile
