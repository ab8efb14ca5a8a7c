import Reconcile.Journaling
import Reconcile.Membership

namespace Reconcile
open Lib
set_option autoImplicit true

variable {K V P T : Type} [LinearOrder K] [DecidableEq P]

/-- The changes a tracker holds for the snapshots to come: those of the open generation and those
of the frozen one. -/
def GenerationState.unsaved (t : GenerationState K V P T) : Nat :=
  t.openGeneration.rawChanges + (t.frozen.map (·.rawChanges)).getD 0

inductive SnapshotAttempt (K V P T : Type) where
  | idle
  | saving (frozen : Option (SnapshotGeneration K V P T))
  | retired (frozen : Option (SnapshotGeneration K V P T))

structure SnapshottingMap (K V P T : Type) where
  replica : MemberReplica K V P T := {}
  attempt : SnapshotAttempt K V P T := .idle

inductive SnapshotEvent (K V P T : Type) where
  | operate (op : Operation K V P T)
  | freeze
  | fail
  | retire
  | commit

def Operation.isRestore : Operation K V P T → Bool
  | .restore _ => true
  | _ => false

def SnapshotAttempt.isIdle : SnapshotAttempt K V P T → Bool
  | .idle => true
  | _ => false

namespace SnapshottingMap

variable [LinearOrder T] (R : Rsos T V) (physical : T → Nat)

/-- `snapshot_inner` in its steps, between which the replica goes on operating: the generation is
frozen, the backend fails or saves, a success retires what was counted and commits. A restore belongs
to the construction of a map, when nothing snapshots it. -/
def step (s : SnapshottingMap K V P T) :
    SnapshotEvent K V P T → Option (SnapshottingMap K V P T)
  | .operate op =>
    if op.isRestore && !s.attempt.isIdle then none
    else some { s with replica := s.replica.apply R physical op }
  | .freeze =>
    match s.attempt with
    | .idle =>
      some {
        replica := { s.replica with
          toReplica := { s.replica.toReplica with generations := s.replica.generations.freeze.2 } }
        attempt := .saving s.replica.generations.freeze.1 }
    | _ => none
  | .fail =>
    match s.attempt with
    | .saving _ => some { s with attempt := .idle }
    | _ => none
  | .retire =>
    match s.attempt with
    | .saving frozen =>
      some {
        replica := s.replica.retireChangeCount ((frozen.map (·.rawChanges)).getD 0)
        attempt := .retired frozen }
    | _ => none
  | .commit =>
    match s.attempt with
    | .retired none => some { s with attempt := .idle }
    | .retired (some generation) =>
      let committed := s.replica.generations.commit generation.id
      -- the source asserts that the commit finds its generation
      if committed.1 then
        some {
          replica := { s.replica with
            toReplica := { s.replica.toReplica with generations := committed.2 } }
          attempt := .idle }
      else none
    | _ => none

end SnapshottingMap

theorem GenerationState.trackingEnabled_transact (t : GenerationState K V P T)
    (tx : Transaction K V P T) : (t.transact tx).trackingEnabled = t.trackingEnabled := by
  induction tx generalizing t with
  | nil => rfl
  | cons m tx ih =>
    refine (ih (t.record m)).trans ?_
    unfold record
    split <;> rfl

theorem SnapshotGeneration.rawChanges_record (g : SnapshotGeneration K V P T)
    (m : Mutation K V P T) : (g.record m).rawChanges = saturatingAdd g.rawChanges 1 := by
  cases m <;> rfl

theorem GenerationState.rawChanges_transact {t : GenerationState K V P T}
    (ht : t.trackingEnabled = true) (hraw : t.openGeneration.rawChanges ≤ u64Max)
    (tx : Transaction K V P T) :
    (t.transact tx).openGeneration.rawChanges =
      min (t.openGeneration.rawChanges + tx.length) u64Max := by
  induction tx generalizing t with
  | nil => exact (min_eq_left hraw).symm
  | cons m tx ih =>
    have hr : (t.record m).openGeneration.rawChanges =
        saturatingAdd t.openGeneration.rawChanges 1 := by
      rw [record, if_pos ht, SnapshotGeneration.rawChanges_record]
    have ht' : (t.record m).trackingEnabled = true := by
      rw [record, if_pos ht]
      exact ht
    have h := ih ht' (by rw [hr]; exact min_le_right _ _)
    rw [hr, saturatingAdd] at h
    refine h.trans ?_
    rw [List.length_cons]
    omega

namespace Replica

/-- From `r` to `r'` the journal takes a transaction, and the counter as many changes. -/
structure Counted (r : Replica K V P T) (tx : Transaction K V P T) (r' : Replica K V P T) :
    Prop where
  journal : r'.generations = r.generations.transact tx
  counter : r.changesSinceSnapshot ≤ u64Max →
    r'.changesSinceSnapshot = (r.changesSinceSnapshot + tx.length) % (u64Max + 1)

variable {r r' r'' : Replica K V P T} {tx tx' : Transaction K V P T}

theorem Counted.refl (r : Replica K V P T) : r.Counted [] r where
  journal := rfl
  counter h := (Nat.mod_eq_of_lt (Nat.lt_succ_of_le h)).symm

theorem Counted.trans (h : r.Counted tx r') (h' : r'.Counted tx' r'') :
    r.Counted (tx ++ tx') r'' where
  journal := by
    rw [h'.journal, h.journal, GenerationState.transact, GenerationState.transact,
      GenerationState.transact, List.foldl_append]
  counter hr := by
    have hc := h.counter hr
    have hle : r'.changesSinceSnapshot ≤ u64Max := by
      rw [hc]
      exact Nat.le_of_lt_succ (Nat.mod_lt _ (Nat.succ_pos _))
    rw [h'.counter hle, hc, Nat.mod_add_mod, List.length_append, Nat.add_assoc]

theorem Counted.recordChanges (hj : r'.generations = r.generations.transact tx)
    (hc : r'.changesSinceSnapshot = r.changesSinceSnapshot) {n : Nat} (hn : n = tx.length) :
    r.Counted tx (r'.recordChanges n) where
  journal := hj
  counter _ := by rw [Replica.recordChanges, hc, hn]

theorem Wrote.counted {ws : List (K × Entry T V)} (h : r.Wrote ws r')
    (hc : r'.changesSinceSnapshot = r.changesSinceSnapshot) {n : Nat} (hn : n = ws.length) :
    r.Counted (.ofEntries ws) (r'.recordChanges n) :=
  .recordChanges h.journal hc (hn.trans (List.length_map _).symm)

theorem counter_mapInsertAll (r : Replica K V P T) (kvs : List (K × Entry T V)) :
    (r.mapInsertAll kvs).changesSinceSnapshot = r.changesSinceSnapshot := by
  induction kvs generalizing r with
  | nil => rfl
  | cons kv kvs ih => exact ih (r.mapInsert kv.1 kv.2)

theorem counted_justInsertBulk (r : Replica K V P T) (kvs : List (K × Entry T V)) :
    r.Counted (.ofEntries kvs) (r.justInsertBulk kvs) :=
  (r.wrote_mapInsertAll kvs).counted (r.counter_mapInsertAll kvs) rfl

variable [LinearOrder T] (R : Rsos T V)

theorem counter_mergeLoop (r : Replica K V P T) (toApply : List (K × Entry T V)) :
    (r.mergeLoop R toApply).1.changesSinceSnapshot = r.changesSinceSnapshot := by
  induction toApply generalizing r with
  | nil => rfl
  | cons kv toApply ih => exact ih (r.mergeUpdate R kv.1 kv.2)

theorem length_mergeWrites (r : Replica K V P T) (toApply : List (K × Entry T V)) :
    (r.mergeWrites R toApply).length = toApply.length := by
  induction toApply generalizing r with
  | nil => rfl
  | cons kv toApply ih => exact congrArg (· + 1) (ih (r.mergeUpdate R kv.1 kv.2))

/-- Every version of a batch is journaled, also when a key has several. -/
theorem counted_mergeDatedUpdates (r : Replica K V P T) (toApply : List (K × Entry T V)) :
    r.Counted (.ofEntries (r.mergeWrites R toApply)) (r.mergeDatedUpdates R toApply).1 :=
  (r.wrote_mergeLoop R toApply).counted (r.counter_mergeLoop R toApply)
    (r.length_mergeWrites R toApply).symm

end Replica

theorem LocalCall.counted_store (r : Replica K V P T) (call : LocalCall K V) (stamps : List T) :
    r.Counted (.ofEntries (call.writes r stamps)) (call.store r stamps) := by
  have hj := (call.wrote_store r stamps).journal
  refine ⟨hj, fun hr => ?_⟩
  have hnone : r.changesSinceSnapshot = (r.changesSinceSnapshot + 0) % (u64Max + 1) :=
    (Nat.mod_eq_of_lt (Nat.lt_succ_of_le hr)).symm
  fun_cases call.store r stamps with
  | case1 k v now => rfl
  | case2 k now => rfl
  | case3 kvs stamps => exact (r.counted_justInsertBulk _).counter hr
  | case4 keys stamps => exact (r.counted_justInsertBulk _).counter hr
  | case5 k callback now =>
    simp only [writes, Replica.getMut]
    split
    · rfl
    · exact hnone
  | case6 k callback validate now =>
    simp only [writes, Replica.mutateLiveChecked]
    split
    · split
      · exact hnone
      · rfl
    · exact hnone
  | case7 call stamps =>
    rw [writes]
    · exact hnone
    all_goals assumption

namespace MemberReplica

def Counts (r r' : MemberReplica K V P T) : Prop :=
  ∃ tx, r.toReplica.Counted tx r'.toReplica

theorem Counts.refl (r : MemberReplica K V P T) : r.Counts r := ⟨[], .refl _⟩

theorem Counts.one {r r' : MemberReplica K V P T} (m : Mutation K V P T)
    (hj : r'.generations = r.generations.record m)
    (hc : r'.changesSinceSnapshot = (r.changesSinceSnapshot + 1) % (u64Max + 1)) : r.Counts r' :=
  ⟨[m], hj, fun _ => hc⟩

theorem Counts.foldl {step : MemberReplica K V P T → α → MemberReplica K V P T}
    (hstep : ∀ (r : MemberReplica K V P T) a, r.Counts (step r a)) (r : MemberReplica K V P T)
    (l : List α) : r.Counts (l.foldl step r) := by
  induction l generalizing r with
  | nil => exact .refl r
  | cons a l ih =>
    obtain ⟨tx, h⟩ := hstep r a
    obtain ⟨tx', h'⟩ := ih (step r a)
    exact ⟨tx ++ tx', h.trans h'⟩

theorem counts_join (r : MemberReplica K V P T) (peer : P) : r.Counts (r.join peer) := by
  unfold join
  split
  · exact .refl r
  · exact .one _ rfl rfl

theorem counts_recordAck (r : MemberReplica K V P T) (peer : P) (key : K) (version : Nat) :
    r.Counts (r.recordAck peer key version) := by
  unfold recordAck
  simp only
  split
  · split
    · exact .refl r
    · exact .one _ rfl rfl
  · exact .refl r

theorem counts_forgetAck (peer : P) (r : MemberReplica K V P T) (key : K) :
    r.Counts (forgetAck peer r key) := by
  unfold forgetAck
  split
  · exact .refl r
  · split
    · exact .one _ rfl rfl
    · exact .refl r

theorem counts_decommissionPeer (r : MemberReplica K V P T) (peer : P) :
    r.Counts (r.decommissionPeer peer) := by
  unfold decommissionPeer
  simp only
  split
  · next hm =>
    -- the removed member is one change, every ack it had is one more
    obtain ⟨tx, h⟩ := Counts.foldl (counts_forgetAck peer)
      { r with
        toReplica := { r.toReplica with
          generations := r.generations.record (.member peer false) }.recordChanges 1
        members := r.members.erase peer } r.tombstoneAcks.keys
    have hone : r.toReplica.Counted [.member peer false] ({ r.toReplica with
        generations := r.generations.record (.member peer false) }.recordChanges 1) :=
      ⟨rfl, fun _ => rfl⟩
    exact ⟨_, hone.trans h⟩
  · exact Counts.foldl (counts_forgetAck peer) r r.tombstoneAcks.keys

section Register

variable [LinearOrder T] (R : Rsos T V) (physical : T → Nat)

theorem counts_collectCandidate (r : MemberReplica K V P T) (key : K) (expected : T) (now : Int)
    (retention : Nat) :
    r.Counts (r.collectCandidate R physical key expected now retention).2 := by
  unfold collectCandidate
  split
  · exact .refl r
  split
  · exact .refl r
  split
  · exact .refl r
  split
  · exact .refl r
  · by_cases hacked : r.tombstoneAcks.contains key = true
    · refine ⟨[.physicalDelete key, .ackKeyClear key], ?_, fun _ => ?_⟩
      · simp only [hacked, ↓reduceIte]
        rfl
      · simp only [hacked, ↓reduceIte]
        rfl
    · refine ⟨[.physicalDelete key], ?_, fun _ => ?_⟩
      · simp only [hacked, Bool.false_eq_true, ↓reduceIte]
        rfl
      · simp only [hacked, Bool.false_eq_true, ↓reduceIte]
        rfl

/-- Every mutation sink counts what it journals. -/
theorem counts_apply (r : MemberReplica K V P T) {op : Operation K V P T}
    (hop : op.isRestore = false) : r.Counts (r.apply R physical op) := by
  cases op with
  | call call stamps => exact ⟨_, call.counted_store r.toReplica stamps⟩
  | receive updates =>
    unfold apply
    simp only
    split
    · exact .refl r
    · exact ⟨_, r.toReplica.counted_mergeDatedUpdates R _⟩
  | merge toApply => exact ⟨_, r.toReplica.counted_mergeDatedUpdates R toApply⟩
  | collect key expected now retention =>
    exact counts_collectCandidate R physical r key expected now retention
  | restore state => cases hop
  | acks peer acks => exact Counts.foldl (fun r ack => counts_recordAck r peer ack.1 ack.2) r acks
  | join peer => exact counts_join r peer
  | decommission peer => exact counts_decommissionPeer r peer

end Register

end MemberReplica

namespace Replica

variable {r r' : Replica K V P T} {tx : Transaction K V P T}

theorem Counted.advance (h : r.Counted tx r') (ht : r.generations.trackingEnabled = true)
    (hc : r.changesSinceSnapshot ≤ r.generations.unsaved)
    (hr : r.generations.unsaved < u64Max) (hr' : r'.generations.unsaved < u64Max) :
    r'.changesSinceSnapshot = r.changesSinceSnapshot + tx.length ∧
      r'.generations.openGeneration.rawChanges =
        r.generations.openGeneration.rawChanges + tx.length ∧
      r'.generations.frozen = r.generations.frozen ∧
      r'.generations.trackingEnabled = true := by
  have hfrozen : r'.generations.frozen = r.generations.frozen := by
    rw [h.journal, GenerationState.frozen_transact]
  have hraw : r'.generations.openGeneration.rawChanges =
      min (r.generations.openGeneration.rawChanges + tx.length) u64Max := by
    rw [h.journal]
    refine GenerationState.rawChanges_transact ht ?_ tx
    unfold GenerationState.unsaved at hr
    omega
  have hcount := h.counter (by omega)
  unfold GenerationState.unsaved at hr hr' hc
  rw [hfrozen] at hr'
  refine ⟨?_, by omega, hfrozen, ?_⟩
  · rw [hcount, Nat.mod_eq_of_lt (by omega)]
  · rw [h.journal, GenerationState.trackingEnabled_transact, ht]

end Replica

namespace SnapshottingMap

/-- What is counted at each point of an attempt: between retiring and committing, the frozen
generation is no longer counted. -/
def expected (s : SnapshottingMap K V P T) : Nat :=
  match s.attempt with
  | .retired _ => s.replica.generations.openGeneration.rawChanges
  | _ => s.replica.generations.unsaved

def Holds (s : SnapshottingMap K V P T) : Prop :=
  match s.attempt with
  | .idle => True
  | .saving frozen => frozen = s.replica.generations.frozen
  | .retired frozen => frozen = s.replica.generations.frozen

structure Accounted (s : SnapshottingMap K V P T) : Prop where
  tracking : s.replica.generations.trackingEnabled = true
  small : s.replica.generations.unsaved < u64Max
  counter : s.replica.changesSinceSnapshot = s.expected
  holds : s.Holds

section Attempt

omit [LinearOrder K] [DecidableEq P]

theorem expected_le_unsaved (s : SnapshottingMap K V P T) :
    s.expected ≤ s.replica.generations.unsaved := by
  unfold expected
  split
  · exact Nat.le_add_right _ _
  · exact le_rfl

theorem unsaved_freeze (t : GenerationState K V P T) : t.freeze.2.unsaved = t.unsaved := by
  unfold GenerationState.freeze
  split
  · rfl
  · next hf =>
    split
    · rfl
    · simp [GenerationState.unsaved, hf]

theorem trackingEnabled_freeze (t : GenerationState K V P T) :
    t.freeze.2.trackingEnabled = t.trackingEnabled := by
  unfold GenerationState.freeze
  split
  · rfl
  · split <;> rfl

variable {s s' : SnapshottingMap K V P T}

theorem Accounted.freeze (h : s.Accounted) (hidle : s.attempt = .idle) :
    Accounted {
      replica := { s.replica with
        toReplica := { s.replica.toReplica with generations := s.replica.generations.freeze.2 } }
      attempt := .saving s.replica.generations.freeze.1 } where
  tracking := (trackingEnabled_freeze _).trans h.tracking
  small := by
    simp only [unsaved_freeze]
    exact h.small
  counter := by
    have hc := h.counter
    unfold expected at hc ⊢
    rw [hidle] at hc
    simp only [unsaved_freeze]
    exact hc
  holds := (GenerationState.frozen_freeze _).symm

theorem Accounted.fail (h : s.Accounted) {frozen : Option (SnapshotGeneration K V P T)}
    (hsaving : s.attempt = .saving frozen) : Accounted { s with attempt := .idle } where
  tracking := h.tracking
  small := h.small
  counter := by
    have hc := h.counter
    unfold expected at hc
    rwa [hsaving] at hc
  holds := trivial

theorem Accounted.retire (h : s.Accounted) {frozen : Option (SnapshotGeneration K V P T)}
    (hsaving : s.attempt = .saving frozen) :
    Accounted {
      replica := s.replica.retireChangeCount ((frozen.map (·.rawChanges)).getD 0)
      attempt := .retired frozen } := by
  have hc := h.counter
  have hholds := h.holds
  unfold expected at hc
  unfold Holds at hholds
  rw [hsaving] at hc hholds
  refine ⟨h.tracking, h.small, ?_, hholds⟩
  -- what is retired is the frozen part of what was counted
  have hsub : s.replica.changesSinceSnapshot - (frozen.map (·.rawChanges)).getD 0 =
      s.replica.generations.openGeneration.rawChanges := by
    rw [hc, GenerationState.unsaved, hholds, Nat.add_sub_cancel]
  exact hsub

theorem Accounted.committed (h : s.Accounted) {frozen : Option (SnapshotGeneration K V P T)}
    (hretired : s.attempt = .retired frozen) :
    Accounted {
      replica := { s.replica with
        toReplica := { s.replica.toReplica with
          generations := { s.replica.generations with frozen := none } } }
      attempt := .idle } where
  tracking := h.tracking
  small := Nat.lt_of_le_of_lt (Nat.le_add_right _ _) h.small
  counter := by
    have hc := h.counter
    unfold expected at hc
    rwa [hretired] at hc
  holds := trivial

end Attempt

variable {s s' : SnapshottingMap K V P T}

theorem Accounted.restore (s : SnapshottingMap K V P T) (state : PersistedState K V P T)
    (hidle : s.attempt = .idle) :
    Accounted { s with replica := s.replica.restore state } where
  tracking := rfl
  small := show 0 < u64Max by decide
  counter := by
    unfold expected
    simp only [hidle]
    exact Nat.sub_self _
  holds := by
    unfold Holds
    simp only [hidle]

variable [LinearOrder T] {R : Rsos T V} {physical : T → Nat}

theorem Accounted.operate (h : s.Accounted) {op : Operation K V P T} (hop : op.isRestore = false)
    (hs : s' = { s with replica := s.replica.apply R physical op })
    (hsmall : s'.replica.generations.unsaved < u64Max) : s'.Accounted := by
  subst hs
  obtain ⟨tx, hcounted⟩ := s.replica.counts_apply R physical hop
  obtain ⟨hc, hraw, hfrozen, ht⟩ := hcounted.advance h.tracking
    (h.counter ▸ s.expected_le_unsaved) h.small hsmall
  have hcounter := h.counter
  have hholds := h.holds
  refine ⟨ht, hsmall, ?_, ?_⟩
  · unfold expected at hcounter ⊢
    unfold GenerationState.unsaved at hcounter ⊢
    simp only
    rw [hfrozen, hraw, hc, hcounter]
    split <;> omega
  · unfold Holds at hholds ⊢
    simp only
    rwa [hfrozen]

theorem Accounted.step (h : s.Accounted) {e : SnapshotEvent K V P T}
    (hs : s.step R physical e = some s') (hsmall : s'.replica.generations.unsaved < u64Max) :
    s'.Accounted := by
  cases e with
  | operate op =>
    rw [SnapshottingMap.step] at hs
    split at hs
    · cases hs
    · next hop =>
      cases hs
      cases hr : op.isRestore with
      | false => exact h.operate hr rfl hsmall
      | true =>
        cases op with
        | restore state =>
          refine .restore s state ?_
          cases ha : s.attempt <;> simp_all [SnapshotAttempt.isIdle]
        | _ => cases hr
  | freeze =>
    rw [SnapshottingMap.step] at hs
    split at hs
    · next ha =>
      cases hs
      exact h.freeze ha
    · cases hs
  | fail =>
    rw [SnapshottingMap.step] at hs
    split at hs
    · next ha =>
      cases hs
      exact h.fail ha
    · cases hs
  | retire =>
    rw [SnapshottingMap.step] at hs
    split at hs
    · next ha =>
      cases hs
      exact h.retire ha
    · cases hs
  | commit =>
    have hholds := h.holds
    unfold Holds at hholds
    rw [SnapshottingMap.step] at hs
    split at hs
    · next ha =>
      cases hs
      rw [ha] at hholds
      have hc := h.committed ha
      rw [hholds] at hc
      exact hc
    · next generation ha =>
      rw [ha] at hholds
      simp only [GenerationState.commit_of_frozen hholds.symm, ↓reduceIte] at hs
      cases hs
      exact h.committed ha
    · cases hs

/-- Whatever runs while snapshots fail and succeed, between two attempts the counter is what the
journal still holds, as long as that stays in the range of the counters. -/
theorem change_counter_exact (R : Rsos T V) (physical : T → Nat)
    {es : List (SnapshotEvent K V P T)} {s : SnapshottingMap K V P T}
    (h : Runs (step R physical) {} es s)
    (hsmall : EachStep (step R physical)
      (fun _ _ s' => s'.replica.generations.unsaved < u64Max) {} es)
    (hquiet : s.attempt = .idle) :
    s.replica.changesSinceSnapshot =
      s.replica.generations.openGeneration.rawChanges +
        (s.replica.generations.frozen.map (·.rawChanges)).getD 0 := by
  have hempty : ({} : SnapshottingMap K V P T).Accounted :=
    ⟨rfl, show 0 < u64Max by decide, rfl, trivial⟩
  have hacc := h.invariant_of (fun _ s => s.Accounted) hempty
    (fun _ _ _ _ hI hs hP => hI.step hs hP) hsmall
  have hc := hacc.counter
  unfold expected at hc
  rwa [hquiet] at hc

def unitRegister : Rsos Nat Unit where
  toMerge := Merge.keepLocal Nat Unit
  digest s := match s with
    | .present _ => 1
    | .tombstone => 0
  entryDigest e := e.stamp

/-- A bulk write with a key twice, a snapshot that fails, one that succeeds, and writes meanwhile. -/
def retriedSnapshot : List (SnapshotEvent Nat Unit Nat Nat) :=
  [.operate (.call (.insertBulk [(1, ()), (1, ())]) [1, 2]), .freeze,
    .operate (.call (.remove 1) [3]), .fail, .freeze, .retire, .operate (.join 7), .commit]

theorem change_counter_exact_retriedSnapshot :
    ∃ s, Runs (step unitRegister id) {} retriedSnapshot s ∧ s.replica.changesSinceSnapshot = 2 ∧
      s.replica.changesSinceSnapshot =
        s.replica.generations.openGeneration.rawChanges +
          (s.replica.generations.frozen.map (·.rawChanges)).getD 0 := by
  have hrun : (runAll (step unitRegister id) {} retriedSnapshot).any (fun s =>
      s.attempt.isIdle && s.replica.changesSinceSnapshot == 2) = true := by decide +kernel
  obtain ⟨s, hs, hend⟩ := (Option.any_eq_true _ _).1 hrun
  rw [Bool.and_eq_true, beq_iff_eq] at hend
  have hchecked : checkAll (step unitRegister id) (fun s e => (step unitRegister id s e).all
      fun s' => s'.replica.generations.unsaved < u64Max) {} retriedSnapshot = true := by
    decide +kernel
  have hidle : s.attempt = .idle := by
    cases ha : s.attempt with
    | idle => rfl
    | _ => simp [ha, SnapshotAttempt.isIdle] at hend
  refine ⟨s, runs_of_runAll hs, hend.2, ?_⟩
  refine change_counter_exact unitRegister id (runs_of_runAll hs) ?_ hidle
  intro es₁ e es₂ t t' he hr hstep
  have ht := eachStep_of_checkAll hchecked es₁ e es₂ t t' he hr hstep
  simpa only [hstep, Option.all_some, decide_eq_true_eq] using ht

def insertOnce : SnapshotEvent Nat Unit Nat Nat := .operate (.call (.insert 0 ()) [0])

/-- The counter wraps where the journal's saturates. -/
theorem runs_insertOnce (n : Nat) :
    ∃ s, Runs (step unitRegister id) {} (List.replicate n insertOnce) s ∧ s.attempt = .idle ∧
      s.replica.generations.trackingEnabled = true ∧ s.replica.generations.frozen = none ∧
      s.replica.changesSinceSnapshot = n % (u64Max + 1) ∧
      s.replica.generations.openGeneration.rawChanges = min n u64Max := by
  induction n with
  | zero => exact ⟨{}, .start, rfl, rfl, rfl, rfl, rfl⟩
  | succ n ih =>
    obtain ⟨s, hr, hidle, ht, hfrozen, hc, hraw⟩ := ih
    rw [List.replicate_succ']
    have hrec : (s.replica.generations.record (.entry 0 (.present 0 ()))) =
        { s.replica.generations with openGeneration :=
          s.replica.generations.openGeneration.record (.entry 0 (.present 0 ())) } := if_pos ht
    refine ⟨_, hr.snoc rfl, hidle, ?_⟩
    simp only [MemberReplica.apply, LocalCall.store, Replica.justInsert, Replica.recordChanges,
      Replica.mapInsert, hrec]
    refine ⟨ht, hfrozen, ?_, ?_⟩
    · rw [hc, Nat.mod_add_mod]
    · rw [SnapshotGeneration.rawChanges_record, hraw, saturatingAdd]
      omega

theorem change_counter_wraps :
    ∃ es s, Runs (step unitRegister id) ({} : SnapshottingMap Nat Unit Nat Nat) es s ∧
      s.attempt = .idle ∧ s.replica.changesSinceSnapshot = 0 ∧
      s.replica.generations.openGeneration.rawChanges = u64Max := by
  obtain ⟨s, hr, hidle, _, _, hc, hraw⟩ := runs_insertOnce (u64Max + 1)
  exact ⟨_, s, hr, hidle, by rw [hc, Nat.mod_self], by rw [hraw]; omega⟩

end SnapshottingMap

end Reconcile
