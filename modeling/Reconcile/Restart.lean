import Reconcile.Admission
import Reconcile.Journaling
import Reconcile.SaveSpec
import Reconcile.SignedCodec

namespace Reconcile
open Lib Lib.Action
set_option autoImplicit true

variable {K V P A : Type}

/-- What a snapshot asks of the backend: the delta of the frozen generation, or else all of the
state. The result says whether the delta was taken. -/
def persist (C : Codec K V P T) (delta : Option (PersistenceDelta K V P T))
    (state : PersistedState K V P T) : Fs Bool := do
  if ← trySaveDeltaFor C delta then return true
  else
    saveFullFor C state
    return false

theorem ensures_persist {C : Codec K V P T} {d : Disk} {image : Image K V P T}
    {g : Nat} {delta : Option (PersistenceDelta K V P T)} {state : PersistedState K V P T}
    (h : StoreAt C d image g) (hg : g < u64Max) :
    Fs.Ensures (fun _ _ _ => True) (fun _ => True) (persist C delta state) (fun r d' => match r with
      | .ok true => (∃ base deltas, image = .chain base deltas) ∧
          ∃ g', g' ≤ g + 1 ∧ StoreAt C d' (image.extend delta) g'
      | .ok false => StoreAt C d' (.chain state []) (g + 1)
      | .error _ => True) d := by
  refine Fs.ensures_bind
    ((ensures_trySaveDeltaFor h hg).mono (fun _ _ => trivial) fun _ _ h => h) ?_
    fun _ _ _ => trivial
  intro saved d' _ hd
  cases saved with
  | true => exact Fs.ensures_pure trivial ⟨hd.2.1, hd.1⟩
  | false =>
    exact Fs.ensures_bind ((ensures_saveFullFor hd hg).mono (fun _ _ => trivial) fun _ _ h => h)
      (fun _ _ _ hd' => Fs.ensures_pure trivial hd') fun _ _ _ => trivial

structure FileNode (K V A : Type) where
  node : SignedNode K V A
  disk : Disk

inductive FileEvent (K V A : Type) where
  | call (call : NodeCall K V A)
  | snapshot (script : List Decision)

def FileEvent.isSnapshot : FileEvent K V A → Bool
  | .call _ => false
  | .snapshot _ => true

def NodeCall.isSnapshot : NodeCall K V A → Bool
  | .snapshotNow _ => true
  | _ => false

def NodeCall.isWrite : NodeCall K V A → Bool
  | .write _ _ => true
  | _ => false

/-- The configuration of a restart names the members that are left as its authorities. A read-only
node has no members and keeps the authorities it was given. -/
def SignedConfig.restarted (config : SignedConfig) (s : SignedNode K V A) : SignedConfig :=
  { config with authorities := if config.readOnly then config.authorities else s.members }

variable [LinearOrder K]

namespace FileNode

/-- `snapshot_now` over the store; there is no next state unless it returns `Ok`. -/
def snapshotNow (C : Codec K V PeerId Timestamp) (s : FileNode K V A) (script : List Decision) :
    Option (FileNode K V A) :=
  match (persist C (s.node.generations.freeze.1.map (·.persistenceDelta))
    s.node.toCausalState.toPersisted).scripted script s.disk with
  | (some (.ok saved), disk) =>
    some ⟨after (SignedNode.snapshotNow ⟨fun _ => .ok saved, fun _ => .ok ()⟩) s.node, disk⟩
  | _ => none

variable [DecidableEq A] (E : SignedSuite K V) (C : Codec K V PeerId Timestamp)

def step (s : FileNode K V A) : FileEvent K V A → Option (FileNode K V A)
  | .call call => if call.isSnapshot then none else some { s with node := s.node.step E call }
  | .snapshot script => s.snapshotNow C script

end FileNode

namespace SignedCausal

variable [DecidableEq P] {H : HlcArithmetic} {R : Rsos Timestamp V}
  {fits : K → Entry Timestamp V → Except SignedError Unit}

theorem transacts_step (s : SignedCausal K V P) {ev : CausalEvent K V P}
    (h : ∀ g, ev = .journal g → g = s.generations) :
    s.toSignedReplica.Transacts (s.step H fits R ev).toSignedReplica := by
  cases ev with
  | write w pt =>
    rw [step]
    rcases s.write_cases (H := H) w pt with ⟨err, he⟩ | ⟨err, he⟩ | ⟨_, he⟩ <;> rw [he]
    · exact .refl _
    · exact .refl _
    · exact s.toSignedReplica.transacts_transact _
  | message peer m pt => exact s.toSignedReplica.transacts_handleVerifiedMessage R peer m
  | decommission peer => exact s.toSignedReplica.transacts_decommission peer
  | collect key => exact .refl _
  | journal g =>
    rw [h g rfl]
    exact .refl _

end SignedCausal

namespace GenerationState

theorem openPatch_freeze [DecidableEq P] {t : GenerationState K V P T} (h : t.Recording)
    (hf : t.frozen = none) : t.freeze.2.openPatch = Overlay.empty := by
  unfold freeze
  simp only [hf]
  split
  · next he => exact h.empty_open he
  · exact SnapshotGeneration.patch_default

theorem apply_frozenPatch [DecidableEq P] {t : GenerationState K V P T} (h : t.Recording)
    (hf : t.frozen = none) (v : View K V P T) :
    t.freeze.2.frozenPatch.apply v = t.openPatch.apply v := by
  have hv := t.apply_freeze v
  rwa [openPatch_freeze h hf, Overlay.apply_empty, frozenPatch.eq_1 t, hf, Overlay.apply_empty] at hv

end GenerationState

theorem CausalState.view_enrolled [DecidableEq P] (peers : List P) (s : CausalState K V P T) :
    (s.transact (peers.map (.member · true))).view = fun
      | .entry k => s.view (.entry k)
      | .member p => decide (p ∈ peers) || s.view (.member p)
      | .ack k p => s.view (.ack k p) := by
  induction peers generalizing s with
  | nil =>
    funext c
    cases c <;> rfl
  | cons peer peers ih =>
    refine (ih (s.mutate (.member peer true))).trans ?_
    rw [view_mutate]
    funext c
    cases c with
    | entry k => rfl
    | ack k p => rfl
    | member p =>
      simp only [Overlay.apply, Mutation.patch, List.mem_cons]
      by_cases hp : p = peer
      · simp only [hp, ↓reduceIte, Option.getD_some, Bool.or_true, true_or, decide_true,
          Bool.true_or]
      · simp only [hp, ↓reduceIte, Option.getD_none, false_or]

/-- A restored node is what was loaded, with nothing journaled; one that starts without a snapshot
has its roster journaled over the empty state. -/
theorem SignedCausal.replay_restore [DecidableEq P] {s : SignedCausal K V P}
    {roles : SignedRoles P} (h : restore H roles c readings loaded = .ok s) :
    s.generations.frozen = none ∧ s.generations.Recording ∧
      s.generations.openPatch.apply (loaded.getD ⟨[], ∅, ∅⟩).view = s.toCausalState.view := by
  have hclean : ({} : GenerationState K V P Timestamp).Clean := ⟨rfl, rfl, rfl⟩
  have hempty : ({} : GenerationState K V P Timestamp).openPatch = Overlay.empty :=
    SnapshotGeneration.patch_default
  obtain ⟨entries, clock', hload, hdiffers, _, rfl⟩ := restore_eq_ok h
  obtain ⟨_, _, rfl⟩ := loadEntries_eq_ok hload
  cases loaded with
  | some saved =>
    have hmembers := ((roles.differs_eq_false saved).1 (hdiffers rfl)).1
    refine ⟨rfl, hclean.recording, ?_⟩
    rw [Option.isSome_some, if_pos rfl, hempty, Overlay.apply_empty]
    funext cell
    cases cell with
    | entry k => rfl
    | member p => exact hmembers p
    | ack k p => rfl
  | none =>
    refine ⟨GenerationState.frozen_transact _ _, hclean.recording.transact _, ?_⟩
    refine (GenerationState.openPatch_transact hclean.recording _ (s := {}) ?_).trans ?_
    · rw [hempty, Overlay.apply_empty]
      rfl
    · rw [CausalState.view_enrolled]
      funext cell
      cases cell with
      | entry k => rfl
      | ack k p => rfl
      | member p =>
        refine (Bool.or_false _).trans ?_
        exact Bool.eq_iff_iff.2 (decide_eq_true_iff.trans (HashMap.contains_iff_mem _ p).symm)

namespace Image

variable [DecidableEq P]

theorem view_eq (image : Image K V P T) : image.view = (image.loaded.getD ⟨[], ∅, ∅⟩).view := by
  rw [view]
  cases image.loaded <;> rfl

theorem loaded_push (base : PersistedState K V P T) (deltas : List (PersistenceDelta K V P T))
    (delta : PersistenceDelta K V P T) : (Image.chain base (deltas ++ [delta])).loaded =
      some (applyDelta (deltas.foldl applyDelta base.toCausal) delta).toPersisted := by
  cases deltas with
  | nil => rfl
  | cons d deltas =>
    simp only [List.cons_append, loaded, List.foldl_cons, List.foldl_append, List.foldl_nil]

theorem acks_loaded {base : PersistedState K V P T} {deltas : List (PersistenceDelta K V P T)}
    {st : PersistedState K V P T} (h : (Image.chain base deltas).loaded = some st) :
    st.tombstoneAcks = (deltas.foldl applyDelta base.toCausal).tombstoneAcks := by
  cases deltas <;> cases h <;> rfl

theorem exists_loaded (base : PersistedState K V P T) (deltas : List (PersistenceDelta K V P T)) :
    ∃ st, (Image.chain base deltas).loaded = some st := by
  cases deltas <;> exact ⟨_, rfl⟩

theorem view_extend_frozen {t : GenerationState K V P T} (base : PersistedState K V P T)
    (deltas : List (PersistenceDelta K V P T)) :
    ((Image.chain base deltas).extend (t.freeze.1.map (·.persistenceDelta))).view =
      t.freeze.2.frozenPatch.apply (Image.chain base deltas).view := by
  rw [GenerationState.frozenPatch, t.frozen_freeze]
  cases t.freeze.1 with
  | none => exact (Overlay.apply_empty _).symm
  | some generation =>
    rw [Option.map_some, extend, view_push, SnapshotGeneration.patch_persistenceDelta]

end Image

namespace SignedNode

theorem after_snapshotNow (s : SignedNode K V A) (saved : Bool) :
    after (snapshotNow ⟨fun _ => .ok saved, fun _ => .ok ()⟩) s =
      { s with generations := { s.generations.freeze.2 with frozen := none } } := by
  have hcommit : commitFrozen s.generations.freeze.1
      { s with generations := s.generations.freeze.2 } =
        { s with generations := { s.generations.freeze.2 with frozen := none } } := by
    have hf := s.generations.frozen_freeze
    cases hg : s.generations.freeze.1 with
    | none =>
      rw [hg] at hf
      rw [commitFrozen, ← hf]
    | some generation =>
      rw [hg] at hf
      simp only [commitFrozen, GenerationState.commit_of_frozen hf]
  rw [← hcommit]
  cases saved <;> rfl

end SignedNode

/-- The store holds the image, and the node is what replaying its open generation over the image
gives. What the store holds can be restored under the node's configuration. -/
structure Stored (C : Codec K V PeerId Timestamp) (config : SignedConfig) (g : Nat)
    (image : Image K V PeerId Timestamp) (s : FileNode K V A) : Prop where
  store : StoreAt C s.disk image g
  distinct : ∀ st, image.loaded = some st → (st.entries.map Prod.fst).Nodup
  pruned : config.readOnly = true → ∀ st, image.loaded = some st → Pruned st.tombstoneAcks
  frozen : s.node.generations.frozen = none
  recording : s.node.generations.Recording
  replay : s.node.generations.openPatch.apply image.view = s.node.toCausalState.view
  rostered : s.node.Rostered
  readOnly : s.node.readOnly = config.readOnly
  authorities : ∀ p, s.node.authorities.contains p = true → config.authorities.contains p = true

namespace Stored

variable {C : Codec K V PeerId Timestamp} {config : SignedConfig} {g : Nat}
  {image : Image K V PeerId Timestamp} {s s' : FileNode K V A}

theorem call [DecidableEq A] {E : SignedSuite K V} (h : Stored C config g image s)
    {call : NodeCall K V A} (hc : call.isSnapshot = false) :
    Stored C config g image { s with node := s.node.step E call } := by
  obtain ⟨ev, hcause, hinner⟩ := s.node.inner_step (E := E) call
  have hcausal := (Prod.mk.inj hinner).1
  have hjournal : ∀ g, ev = .journal g → g = s.node.generations := by
    rintro g rfl
    cases hcause with
    | quiet => rfl
    | snapshot => cases hc
  have htransacts : s.node.toSignedReplica.Transacts (s.node.step E call).toSignedReplica := by
    rw [hcausal]
    exact s.node.transacts_step hjournal
  have hrostered : (s.node.step E call).toSignedCausal.Rostered := by
    rw [hcausal]
    exact SignedCausal.rostered_step h.rostered ev
  have hroles : (s.node.step E call).readOnly = s.node.readOnly ∧
      ∀ p, (s.node.step E call).authorities.contains p = true →
        s.node.authorities.contains p = true := by
    rw [hcausal]
    exact s.node.roles_step ev
  obtain ⟨tx, hlive, hgen⟩ := htransacts
  obtain ⟨hro, hauth⟩ := hroles
  refine ⟨h.store, h.distinct, h.pruned, ?_, ?_, ?_, hrostered, hro.trans h.readOnly,
    fun p hp => h.authorities p (hauth p hp)⟩
  · rw [hgen, GenerationState.frozen_transact]
    exact h.frozen
  · rw [hgen]
    exact h.recording.transact tx
  · rw [hgen, hlive]
    exact GenerationState.openPatch_transact h.recording tx h.replay

theorem start {E : SignedSuite K V} {d : Disk} {n : SignedNode K V A} (hd : StoreAt C d image g)
    (h₀ : SignedNode.new E config clusterKey signer clock readings (.ok image.loaded) = .ok n) :
    Stored C config g image ⟨n, d⟩ := by
  obtain ⟨_, _, boundary, stored, causal, _, _, _, hstored, hrestore, rfl⟩ :=
    SignedNode.new_eq_ok.1 h₀
  cases hstored
  have hrostered := SignedCausal.rostered_restore hrestore
  obtain ⟨hfrozen, hrecording, hreplay⟩ := SignedCausal.replay_restore hrestore
  rw [← Image.view_eq] at hreplay
  obtain ⟨entries, clock', hload, _, _, rfl⟩ := SignedCausal.restore_eq_ok hrestore
  refine ⟨hd, ?_, ?_, hfrozen, hrecording, hreplay, hrostered, rfl, fun _ hp => hp⟩
  · intro st hst
    rw [hst] at hload
    exact (SignedCausal.loadEntries_eq_ok hload).1
  · intro hr st hst k m hm
    have hnone : (image.loaded.getD ⟨[], ∅, ∅⟩).tombstoneAcks = ∅ := hrostered.readOnly hr
    rw [hst, Option.getD_some] at hnone
    rw [hnone, AList.lookup_empty] at hm
    cases hm

theorem retire (h : Stored C config g image s) {image' : Image K V PeerId Timestamp} {disk : Disk}
    (hstore : StoreAt C disk image' g')
    (hdistinct : ∀ st, image'.loaded = some st → (st.entries.map Prod.fst).Nodup)
    (hpruned : config.readOnly = true → ∀ st, image'.loaded = some st → Pruned st.tombstoneAcks)
    (hview : image'.view = s.node.toCausalState.view) :
    Stored C config g' image' ⟨{ s.node with
      generations := { s.node.generations.freeze.2 with frozen := none } }, disk⟩ where
  store := hstore
  distinct := hdistinct
  pruned := hpruned
  frozen := rfl
  recording := ⟨h.recording.freeze.trackingEnabled, h.recording.freeze.empty_open⟩
  replay := by
    have hempty := GenerationState.openPatch_freeze h.recording h.frozen
    simp only [GenerationState.openPatch] at hempty ⊢
    rw [hempty, Overlay.apply_empty, hview]
  rostered := ⟨h.rostered.members, h.rostered.acks, h.rostered.readOnly⟩
  readOnly := h.readOnly
  authorities := h.authorities

/-- A snapshot that returns `Ok` leaves a store that holds the state of the node. -/
theorem snapshot (h : Stored C config g image s) (hg : g < u64Max)
    (hs : s.snapshotNow C script = some s') :
    ∃ g' image' st, g' ≤ g + 1 ∧ Stored C config g' image' s' ∧ image'.loaded = some st ∧
      image'.view = s'.node.toCausalState.view := by
  rw [FileNode.snapshotNow] at hs
  split at hs
  · next saved disk hrun =>
    cases hs
    have hsaved := (ensures_persist h.store hg).scripted hrun
    rw [SignedNode.after_snapshotNow]
    cases saved with
    | false =>
      have hview := s.node.toCausalState.view_toPersisted
      refine ⟨g + 1, _, _, le_rfl, h.retire hsaved ?_ ?_ hview, rfl, hview⟩
      · rintro _ ⟨⟩
        exact s.node.entries.keys_toList_nodup
      · rintro hr _ ⟨⟩ k m hm
        rw [CausalState.toPersisted, h.rostered.readOnly (h.readOnly.trans hr),
          AList.lookup_empty] at hm
        cases hm
    | true =>
      obtain ⟨⟨base, deltas, rfl⟩, g', hle, hstore⟩ := hsaved
      obtain ⟨st, hst⟩ := Image.exists_loaded base deltas
      have hview : ((Image.chain base deltas).extend
          (s.node.generations.freeze.1.map (·.persistenceDelta))).view =
            s.node.toCausalState.view := by
        rw [Image.view_extend_frozen, GenerationState.apply_frozenPatch h.recording h.frozen]
        exact h.replay
      cases hf : s.node.generations.freeze.1 with
      | none =>
        rw [hf] at hstore hview
        exact ⟨g', _, st, hle, h.retire hstore h.distinct h.pruned hview, hst, hview⟩
      | some generation =>
        rw [hf, Option.map_some] at hstore hview
        have hpush := Image.loaded_push base deltas generation.persistenceDelta
        refine ⟨g', _, _, hle, h.retire hstore ?_ ?_ hview, hpush, hview⟩
        · intro st' hst'
          rw [Image.extend, hpush] at hst'
          cases hst'
          exact HashMap.keys_toList_nodup _
        · intro hr st' hst'
          rw [Image.extend, hpush] at hst'
          cases hst'
          have hbefore := h.pruned hr st hst
          rw [Image.acks_loaded hst] at hbefore
          exact hbefore.applyDelta _
  · cases hs

theorem contains_restarted (h : Stored C config g image s) (p : PeerId) :
    (config.restarted s.node).members.contains p = s.node.members.contains p := by
  rw [SignedRoles.members, SignedConfig.restarted]
  cases hr : config.readOnly with
  | true =>
    rw [h.rostered.members, h.readOnly, hr]
    rfl
  | false => rfl

theorem authority_restarted (h : Stored C config g image s)
    (hp : s.node.members.contains p = true) :
    (config.restarted s.node).authorities.contains p = true := by
  rw [← h.contains_restarted, SignedRoles.contains_members, Bool.and_eq_true] at hp
  exact hp.2

theorem restarted_subset (h : Stored C config g image s) (p : PeerId)
    (hp : (config.restarted s.node).authorities.contains p = true) :
    config.authorities.contains p = true := by
  rw [SignedConfig.restarted] at hp
  cases hr : config.readOnly with
  | true =>
    rw [hr] at hp
    exact hp
  | false =>
    rw [hr] at hp
    exact h.authorities p (h.rostered.authority hp)

theorem restore (h : Stored C config g image s) {st : PersistedState K V PeerId Timestamp}
    (hl : image.loaded = some st) (hv : image.view = s.node.toCausalState.view)
    (H : HlcArithmetic) (clock : HlcClock) (readings : Nat → PhysicalTime) :
    ∃ causal, SignedCausal.restore H (config.restarted s.node).toSignedRoles clock readings
        (some st) = .ok causal ∧ causal.toCausalState.Same s.node.toCausalState := by
  have hst : st.view = s.node.toCausalState.view := by
    rw [← hv, Image.view_eq, hl, Option.getD_some]
  have hmembers (p : PeerId) : st.members.contains p = s.node.members.contains p :=
    congrFun hst (.member p)
  have hacks (k : K) (p : PeerId) : (st.tombstoneAcks.lookup k).bind (·.lookup p) =
      s.node.acknowledgedVersion k p := congrFun hst (.ack k p)
  have hdiffers : (config.restarted s.node).differs st = false := by
    refine (SignedRoles.differs_eq_false _ _).2 ⟨fun p => ?_, fun hr => ?_⟩
    · rw [hmembers, h.contains_restarted]
    · refine (h.pruned hr st hl).eq_empty fun k p => ?_
      rw [hacks]
      exact SignedCausal.acknowledged_of_empty (h.rostered.readOnly (h.readOnly.trans hr)) k p
  have hcovers : (config.restarted s.node).coversBlockers st = true := by
    refine (SignedRoles.coversBlockers_eq_true _ _).2 ⟨fun p hp => ?_, fun k p hk => ?_⟩
    · rw [hmembers] at hp
      exact h.authority_restarted hp
    · rw [hacks] at hk
      exact h.authority_restarted (h.rostered.acks k p hk)
  have hloads : ∃ c', SignedCausal.loadEntries H readings 0 clock ∅ st.entries =
      .ok (st.entries.foldl (fun m kv => m.insert kv.1 kv.2) ∅, c') :=
    SignedCausal.exists_loadEntries (h.distinct st hl) (fun _ _ => rfl) 0 clock
  obtain ⟨clock', hload⟩ := hloads
  simp only [SignedCausal.restore, Option.getD_some, Option.isSome_some, hdiffers, hcovers, hload,
    Bool.and_false, Bool.not_true, Bool.false_eq_true, ↓reduceIte, Except.map]
  refine ⟨_, rfl, (CausalState.same_iff _ _).2 ?_⟩
  rw [← hst]
  funext cell
  cases cell with
  | entry k => rfl
  | member p => exact (h.contains_restarted p).trans (hmembers p).symm
  | ack k p => rfl

theorem construct {E : SignedSuite K V} {n₀ : SignedNode K V A} (h : Stored C config g image s)
    (h₀ : SignedNode.new E config clusterKey signer clock₀ readings₀ loaded₀ = .ok n₀)
    {causal : SignedCausal K V PeerId}
    (hr : SignedCausal.restore E.hlc (config.restarted s.node).toSignedRoles clock readings loaded =
      .ok causal) :
    ∃ n : SignedNode K V A, SignedNode.new E (config.restarted s.node) clusterKey signer clock
      readings (.ok loaded) = .ok n ∧ n.toSignedCausal = causal := by
  obtain ⟨hoverlaps, hlimits, boundary, _, _, hboundary, hbudget, hvalid, _⟩ :=
    SignedNode.new_eq_ok.1 h₀
  have hlen : (config.restarted s.node).authorities.len ≤ config.authorities.len :=
    HashMap.len_le_of_contains h.restarted_subset
  obtain ⟨boundary', hboundary', hsame⟩ :=
    Boundary.new_allowlist hboundary (SignedNode.allowlist (config.restarted s.node))
  refine ⟨_, SignedNode.new_eq_ok.2 ⟨?_, ?_, boundary', loaded, causal, hboundary', ?_, hvalid,
    rfl, hr, rfl⟩, rfl⟩
  · rw [SignedNode.overlaps, Bool.or_eq_false_iff, Bool.or_eq_false_iff, List.any_eq_false]
      at hoverlaps ⊢
    obtain ⟨⟨hauth, hreader⟩, hdisjoint⟩ := hoverlaps
    refine ⟨⟨?_, hreader⟩, ?_⟩
    · exact Bool.eq_false_iff.2 fun hp => Bool.eq_false_iff.1 hauth (h.restarted_subset _ hp)
    · intro p hp
      have hp' := h.restarted_subset p ((HashMap.contains_iff_mem _ p).2 hp)
      exact hdisjoint p ((HashMap.contains_iff_mem _ p).1 hp')
  · simp only [SignedConfig.restarted] at hlen ⊢
    omega
  · rw [hsame]
    exact hbudget

end Stored

namespace FileNode

variable [DecidableEq A] {E : SignedSuite K V} {C : Codec K V PeerId Timestamp}

theorem stored_run {config : SignedConfig} {image : Image K V PeerId Timestamp}
    {s₀ s : FileNode K V A} {es : List (FileEvent K V A)} (h₀ : Stored C config g₀ image s₀)
    (hr : Runs (step E C) s₀ es s) (hg : g₀ + es.countP FileEvent.isSnapshot ≤ u64Max) :
    ∃ g image', g ≤ g₀ + es.countP FileEvent.isSnapshot ∧ Stored C config g image' s := by
  refine hr.invariant (fun es s => g₀ + es.countP FileEvent.isSnapshot ≤ u64Max →
    ∃ g image', g ≤ g₀ + es.countP FileEvent.isSnapshot ∧ Stored C config g image' s)
    (fun _ => ⟨g₀, image, le_rfl, h₀⟩) ?_ hg
  intro es s e s' ih hs hg
  rw [List.countP_append] at hg ⊢
  obtain ⟨g, image', hle, hstored⟩ := ih (by omega)
  cases e with
  | call call =>
    rw [step] at hs
    split at hs
    · cases hs
    · next hc =>
      cases hs
      exact ⟨g, image', hle, hstored.call (Bool.eq_false_iff.2 hc)⟩
  | snapshot script =>
    have hone : [FileEvent.snapshot (K := K) (V := V) (A := A) script].countP
      FileEvent.isSnapshot = 1 := rfl
    rw [hone] at hg ⊢
    obtain ⟨g', image'', _, hle', hstored', _, _⟩ := hstored.snapshot (by omega) hs
    exact ⟨g', image'', by omega, hstored'⟩

end FileNode

namespace SignedNode

variable [DecidableEq A] {E : SignedSuite K V}

theorem last_le_calls (hH : E.hlc.Lawful) {s : SignedNode K V A} {calls : List (NodeCall K V A)}
    (h : ∀ call ∈ calls, call.isWrite = false)
    (hp : EachCall E (fun s call => s.passes E call = true) s calls) :
    s.clock.last ≤ (calls.foldl (step E) s).clock.last := by
  induction calls using List.reverseRecOn with
  | nil => exact le_rfl
  | append_singleton calls call ih =>
    refine (ih (fun c hc => h c (List.mem_append_left _ hc)) hp.init).trans ?_
    rw [List.foldl_append]
    obtain ⟨ev, hcause, hinner⟩ := (calls.foldl (step E) s).inner_step (E := E) call
    have hcausal := (Prod.mk.inj hinner).1
    have hwrite : ∀ w pt, ev ≠ .write w pt := by
      rintro w pt rfl
      cases hcause
      exact absurd (h _ (List.mem_append_right _ List.mem_cons_self)) (by simp [NodeCall.isWrite])
    change _ ≤ ((calls.foldl (step E) s).step E call).clock.last
    rw [hcausal]
    exact SignedCausal.last_le_step hH hwrite (hcause.passes hp.last)

omit [DecidableEq A] in
theorem write_eq_ok {s s' : SignedNode K V A} {w : LocalWrite K V}
    (h : write E w pt s = .ok () s') :
    s'.entries = s.entries.insert w.key (w.entry (s.clock.now E.hlc pt).1) := by
  have hrun : write E w pt s =
      let written := s.toSignedCausal.write E.hlc (s.ensureEntryFits E) w pt
      (ofExcept .replica written.1 : NodeM K V A Unit) { s with toSignedCausal := written.2 } := rfl
  rw [hrun] at h
  rcases s.toSignedCausal.write_cases w pt with ⟨err, he⟩ | ⟨err, he⟩ | ⟨_, he⟩
  · rw [he] at h
    cases h
  · rw [he] at h
    cases h
  · rw [he] at h
    cases h
    exact SignedReplica.entries_recordEntry _ _ _

end SignedNode

/-- In a run whose snapshots all succeed, and which does not use up the generations, a node restarted
right after a snapshot with the members left as its authorities has the entries, members and
acknowledgements of the node. Its first local write of a key that was restored is stamped above the
restored entry, unless the clock met its last reading: in a stamp that it observed, or in itself
when it observed one or dated the write. -/
theorem restart_faithful [DecidableEq A] {E : SignedSuite K V} {C : Codec K V PeerId Timestamp}
    {config : SignedConfig} {image : Image K V PeerId Timestamp} {d₀ : Disk}
    {n₀ : SignedNode K V A} {es : List (FileEvent K V A)} {s₁ s : FileNode K V A}
    (hH : E.hlc.Lawful) (hd : StoreAt C d₀ image g₀)
    (h₀ : SignedNode.new E config clusterKey signer clock₀ readings₀ ((load C).quiet d₀).1 = .ok n₀)
    (hr : Runs (FileNode.step E C) ⟨n₀, d₀⟩ es s₁)
    (hg : g₀ + es.countP FileEvent.isSnapshot < u64Max)
    (hs : s₁.snapshotNow C script = some s) (clock : HlcClock) (readings : Nat → PhysicalTime) :
    ∃ n : SignedNode K V A,
      SignedNode.new E (config.restarted s.node) clusterKey signer clock readings
        ((load C).quiet s.disk).1 = .ok n ∧
      n.toCausalState.Same s.node.toCausalState ∧
      ∀ (calls : List (NodeCall K V A)) (w : LocalWrite K V) (pt : PhysicalTime)
          (old : Entry Timestamp V) (n₁ n₂ : SignedNode K V A),
        n.entries.lookup w.key = some old → (∀ call ∈ calls, call.isWrite = false) →
        (∀ saved, ((load C).quiet s.disk).1 = .ok (some saved) →
          SignedCausal.loadPasses E.hlc readings 0 clock saved.entries = true) →
        SignedNode.EachCall E (fun s call => s.passes E call = true) n calls →
        calls.foldl (SignedNode.step E) n = n₁ → n₁.clock.last ≠ Hlc.top →
        SignedNode.write E w pt n₁ = .ok () n₂ →
        ∃ stamp, n₂.entries.lookup w.key = some (w.entry stamp) ∧ old.stamp < stamp := by
  rw [hd.load] at h₀
  obtain ⟨g, image₁, hle, hstored₁⟩ := FileNode.stored_run (.start hd h₀) hr (Nat.le_of_lt hg)
  obtain ⟨g', image', st, _, hstored, hloaded, hview⟩ := hstored₁.snapshot (by omega) hs
  obtain ⟨causal, hrestore, hsame⟩ := hstored.restore hloaded hview E.hlc clock readings
  obtain ⟨n, hnew, rfl⟩ := hstored.construct h₀ hrestore
  rw [hstored.store.load, hloaded]
  refine ⟨n, hnew, hsame, ?_⟩
  intro calls w pt old n₁ n₂ hold hcalls hload hpass hn₁ htop hwrite
  have hcovers : n.toSignedCausal.Covers := by
    refine SignedCausal.covers_restore hH hrestore ?_
    rintro saved ⟨⟩
    exact hload st rfl
  -- from the restored entry: reached by the restored clock, which goes on to the write's
  have hclock : old.stamp.hlc ≤ n₁.clock.last := by
    rw [← hn₁]
    exact (hcovers w.key old hold).trans (SignedNode.last_le_calls hH hcalls hpass)
  refine ⟨(n₁.clock.now E.hlc pt).1, ?_, ?_⟩
  · rw [SignedNode.write_eq_ok hwrite]
    exact AList.lookup_insert _
  · exact Timestamp.lt_of_hlc_lt (hclock.trans_lt (HlcClock.last_lt_now hH htop pt))

namespace FileNode

open SignedNode Boundary Ingress

def emptyDisk : Disk := fun _ => none

def untroubled : List Decision := List.replicate 40 (.succeed [])

def retiring : List (NodeCall Nat Nat Nat) :=
  confirming ++ [.receive 7 updateDatagram (readingsAt 20 nines) 1000, .write (.insert 2 30) 1001,
    .decommission (zeros 32)]

theorem new_emptyDisk : new plainSuite pairConfig (zeros 32) nines { nodeId := 1 } (fun _ => 0)
    ((load signedCodec).quiet emptyDisk).1 = .ok pair := rfl

/-- The node comes back without the retired authority, and with both entries. -/
theorem restart_faithful_retiring : ∃ (s₁ s : FileNode Nat Nat Nat) (n : SignedNode Nat Nat Nat),
    Runs (step plainSuite signedCodec) ⟨pair, emptyDisk⟩ (retiring.map .call) s₁ ∧
    s₁.snapshotNow signedCodec untroubled = some s ∧
    s.node.members = ∅ ∧ s.node.entries.len = 2 ∧
    new plainSuite (pairConfig.restarted s.node) (zeros 32) nines { nodeId := 1 } (fun _ => 0)
      ((load signedCodec).quiet s.disk).1 = .ok n ∧
    n.toCausalState.Same s.node.toCausalState := by
  have hrun : (runAll (step plainSuite signedCodec) ⟨pair, emptyDisk⟩ (retiring.map .call)).any
      (fun s₁ => (s₁.snapshotNow signedCodec untroubled).any fun s =>
        decide (s.node.members.entries.length = 0 ∧ s.node.entries.len = 2)) = true := by
    decide +kernel
  obtain ⟨s₁, hs₁, h⟩ := (Option.any_eq_true _ _).1 hrun
  obtain ⟨s, hs, h⟩ := (Option.any_eq_true _ _).1 h
  obtain ⟨hmembers, hlen⟩ := of_decide_eq_true h
  have hd : StoreAt signedCodec emptyDisk (.bare none) 0 := ⟨rfl, rfl, rfl⟩
  obtain ⟨n, hnew, hsame, _⟩ := restart_faithful HlcArithmetic.lawful_standard hd new_emptyDisk
    (runs_of_runAll hs₁) (by decide) hs { nodeId := 1 } fun _ => 0
  exact ⟨s₁, s, n, runs_of_runAll hs₁, hs, AList.ext (List.length_eq_zero_iff.1 hmembers), hlen,
    hnew, hsame⟩

def latest : Timestamp := ⟨Hlc.top, Fin.last (2 ^ 64 - 1)⟩

/-- As `plainSuite`, where the update is stamped with the last timestamp there is. -/
def latestSuite : SignedSuite Nat Nat :=
  { plainSuite with
    deserialize := fun bytes => if bytes = [5] then some (.update 1 (.present latest 10)) else none }

def updated : List (NodeCall Nat Nat Nat) :=
  confirming ++ [.receive 7 updateDatagram (readingsAt 20 nines) 1000]

def relaunch (s : FileNode Nat Nat Nat) : Except ConstructError (SignedNode Nat Nat Nat) :=
  new latestSuite (pairConfig.restarted s.node) (zeros 32) nines { nodeId := 1 } (fun _ => 0)
    ((load signedCodec).quiet s.disk).1

def restamped (s : FileNode Nat Nat Nat) : Option (Timestamp × Timestamp) :=
  match relaunch s with
  | .error _ => none
  | .ok n =>
    match write latestSuite (.insert 1 20) 2000 n with
    | .error _ _ => none
    | .ok _ n' => do
      let old ← n.entries.lookup 1
      let written ← n'.entries.lookup 1
      return (old.stamp, written.stamp)

/-- An authority's update with the last timestamp is stored, saved and restored; the write that
follows the restart is not stamped above it, since nothing is. -/
theorem restart_shadowed :
    new latestSuite pairConfig (zeros 32) nines { nodeId := 1 } (fun _ => 0)
      ((load signedCodec).quiet emptyDisk).1 = .ok pair ∧
    ∃ (s₁ s : FileNode Nat Nat Nat) (stamp : Timestamp),
      Runs (step latestSuite signedCodec) ⟨pair, emptyDisk⟩ (updated.map .call) s₁ ∧
      s₁.snapshotNow signedCodec untroubled = some s ∧
      restamped s = some (latest, stamp) ∧ ¬latest < stamp := by
  have hrun : (runAll (step latestSuite signedCodec) ⟨pair, emptyDisk⟩ (updated.map .call)).any
      (fun s₁ => (s₁.snapshotNow signedCodec untroubled).any fun s =>
        (restamped s).any fun stamps => decide (stamps.1 = latest ∧ ¬latest < stamps.2)) = true := by
    decide +kernel
  obtain ⟨s₁, hs₁, h⟩ := (Option.any_eq_true _ _).1 hrun
  obtain ⟨s, hs, h⟩ := (Option.any_eq_true _ _).1 h
  obtain ⟨⟨old, stamp⟩, hstamps, h⟩ := (Option.any_eq_true _ _).1 h
  obtain ⟨rfl, hlt⟩ := of_decide_eq_true h
  exact ⟨rfl, s₁, s, stamp, runs_of_runAll hs₁, hs, hstamps, hlt⟩

end FileNode

end Reconcile
