import Reconcile.Capture

namespace Reconcile
open Lib
set_option autoImplicit true

variable {K V P T : Type} [LinearOrder K] [DecidableEq P]

abbrev Transaction (K V P T : Type) : Type := List (Mutation K V P T)

def CausalState.transact (s : CausalState K V P T) (tx : Transaction K V P T) :
    CausalState K V P T := tx.foldl CausalState.mutate s

def CausalState.replay (s : CausalState K V P T) (log : List (Transaction K V P T)) :
    CausalState K V P T := log.foldl CausalState.transact s

def GenerationState.transact (t : GenerationState K V P T) (tx : Transaction K V P T) :
    GenerationState K V P T := tx.foldl GenerationState.record t

def CausalState.toPersisted (s : CausalState K V P T) : PersistedState K V P T where
  entries := s.entries.toList
  members := s.members
  tombstoneAcks := s.tombstoneAcks

def PersistedState.extend (s : PersistedState K V P T) (delta : PersistenceDelta K V P T) :
    PersistedState K V P T := (applyDelta s.toCausal delta).toPersisted

/-- The legacy map pins its root and copies it in chunks; the signed actor clones its fields. -/
inductive Runtime where
  | map
  | signed
  deriving DecidableEq, Repr

def Runtime.capture (r : Runtime) (s : CausalState K V P T) : PersistedState K V P T :=
  match r with
  | .map => s.collectPersistedState
  | .signed => s.toPersisted

inductive Attempt (K V P T : Type) where
  | idle
  | started (frozen : Option (SnapshotGeneration K V P T))
  | captured (frozen : Option (SnapshotGeneration K V P T)) (cut : PersistedState K V P T)
  | published (frozen : Option (SnapshotGeneration K V P T)) (full : Bool)

/-- The runtime with its tracker, over a backend reduced to the state it would load.
The log is a history variable. -/
structure Journal (K V P T : Type) where
  live : CausalState K V P T
  tracker : GenerationState K V P T
  durable : PersistedState K V P T
  attempt : Attempt K V P T := .idle
  log : List (Transaction K V P T) := []

namespace Journal

/-- What a retry of the frozen generation and then of the open one would make durable. -/
def recovered (j : Journal K V P T) : CausalState K V P T :=
  let base := match j.tracker.frozen with
    | some g => applyDelta j.durable.toCausal g.persistenceDelta
    | none => j.durable.toCausal
  applyDelta base j.tracker.openGeneration.persistenceDelta

/-- Writers run at any moment; the attempt freezes, publishes a delta or a later full cut, and
commits. It may fail at each point, before or after the new state is published; a strict run
has no failure after a full cut was published with a frozen generation pending. -/
inductive Step (strict : Bool) : Journal K V P T → Journal K V P T → Prop where
  | mutate (j : Journal K V P T) (tx : Transaction K V P T) :
    Step strict j { j with
      live := j.live.transact tx
      tracker := j.tracker.transact tx
      log := j.log ++ [tx] }
  | freeze (j : Journal K V P T) (h : j.attempt = .idle) :
    Step strict j { j with
      tracker := j.tracker.freeze.2
      attempt := .started j.tracker.freeze.1 }
  | publishDelta (j : Journal K V P T) (g : SnapshotGeneration K V P T)
      (h : j.attempt = .started (some g)) :
    Step strict j { j with
      durable := j.durable.extend g.persistenceDelta
      attempt := .published (some g) false }
  | nothingToSave (j : Journal K V P T) (h : j.attempt = .started none) :
    Step strict j { j with attempt := .published none false }
  | capture (j : Journal K V P T) (r : Runtime) (frozen : Option (SnapshotGeneration K V P T))
      (h : j.attempt = .started frozen) :
    Step strict j { j with attempt := .captured frozen (r.capture j.live) }
  | publishFull (j : Journal K V P T) (frozen : Option (SnapshotGeneration K V P T))
      (cut : PersistedState K V P T) (h : j.attempt = .captured frozen cut) :
    Step strict j { j with durable := cut, attempt := .published frozen true }
  | commit (j : Journal K V P T) (g : SnapshotGeneration K V P T) (full : Bool)
      (h : j.attempt = .published (some g) full) :
    Step strict j { j with tracker := (j.tracker.commit g.id).2, attempt := .idle }
  | commitNone (j : Journal K V P T) (full : Bool) (h : j.attempt = .published none full) :
    Step strict j { j with attempt := .idle }
  | fail (j : Journal K V P T)
      (h : strict = true → ∀ g, j.attempt ≠ .published (some g) true) :
    Step strict j { j with attempt := .idle }

inductive Reachable (strict : Bool) (j₀ : Journal K V P T) : Journal K V P T → Prop where
  | refl : Reachable strict j₀ j₀
  | step (h : Reachable strict j₀ j) (hs : Step strict j j') : Reachable strict j₀ j'

end Journal

namespace GenerationState

def frozenPatch (t : GenerationState K V P T) : Patch K V P T :=
  match t.frozen with
  | some g => g.patch
  | none => Overlay.empty

def openPatch (t : GenerationState K V P T) : Patch K V P T := t.openGeneration.patch

structure Clean (t : GenerationState K V P T) : Prop where
  openGeneration : t.openGeneration = {}
  frozen : t.frozen = none
  trackingEnabled : t.trackingEnabled = true

/-- A tracker that records, and whose emptiness test on the raw counter is accurate. -/
structure Recording (t : GenerationState K V P T) : Prop where
  trackingEnabled : t.trackingEnabled = true
  empty_open : t.openGeneration.isEmpty = true → t.openPatch = Overlay.empty

theorem Clean.recording {t : GenerationState K V P T} (h : t.Clean) : t.Recording where
  trackingEnabled := h.trackingEnabled
  empty_open _ := by rw [openPatch, h.openGeneration, SnapshotGeneration.patch_default]

theorem Recording.record {t : GenerationState K V P T} (h : t.Recording) (m : Mutation K V P T) :
    (t.record m).Recording := by
  have he : t.record m = { t with openGeneration := t.openGeneration.record m } :=
    if_pos h.trackingEnabled
  rw [he]
  refine ⟨h.trackingEnabled, ?_⟩
  intro h₁
  rw [SnapshotGeneration.record_not_isEmpty] at h₁
  exact absurd h₁ Bool.false_ne_true

theorem Recording.transact {t : GenerationState K V P T} (h : t.Recording)
    (tx : Transaction K V P T) : (t.transact tx).Recording := by
  induction tx generalizing t with
  | nil => exact h
  | cons m tx ih => exact ih (h.record m)

theorem frozen_record (t : GenerationState K V P T) (m : Mutation K V P T) :
    (t.record m).frozen = t.frozen := by
  unfold record
  split <;> rfl

theorem frozen_transact (t : GenerationState K V P T) (tx : Transaction K V P T) :
    (t.transact tx).frozen = t.frozen := by
  induction tx generalizing t with
  | nil => rfl
  | cons m tx ih => exact (ih _).trans (frozen_record t m)

theorem frozenPatch_transact (t : GenerationState K V P T) (tx : Transaction K V P T) :
    (t.transact tx).frozenPatch = t.frozenPatch := by
  rw [frozenPatch, frozen_transact, frozenPatch]

theorem openPatch_record {t : GenerationState K V P T} (h : t.Recording) (m : Mutation K V P T) :
    (t.record m).openPatch = t.openPatch.followedBy m.patch := by
  rw [record, if_pos h.trackingEnabled]
  exact SnapshotGeneration.patch_record _ _

theorem openPatch_transact {t : GenerationState K V P T} (h : t.Recording)
    (tx : Transaction K V P T) {v : View K V P T} {s : CausalState K V P T}
    (hv : t.openPatch.apply v = s.view) :
    (t.transact tx).openPatch.apply v = (s.transact tx).view := by
  induction tx generalizing t s with
  | nil => exact hv
  | cons m tx ih =>
    apply ih (h.record m)
    rw [openPatch_record h, Overlay.apply_followedBy, hv, CausalState.view_mutate]

omit [LinearOrder K] [DecidableEq P] in
theorem frozen_freeze (t : GenerationState K V P T) : t.freeze.2.frozen = t.freeze.1 := by
  unfold freeze
  split
  · next g h => exact h
  · next h =>
    split
    · exact h
    · rfl

theorem Recording.freeze {t : GenerationState K V P T} (h : t.Recording) :
    t.freeze.2.Recording := by
  unfold GenerationState.freeze
  split
  · exact h
  · split
    · exact h
    · exact ⟨h.trackingEnabled, fun _ => SnapshotGeneration.patch_default⟩

theorem apply_freeze (t : GenerationState K V P T) (v : View K V P T) :
    t.freeze.2.openPatch.apply (t.freeze.2.frozenPatch.apply v) =
      t.openPatch.apply (t.frozenPatch.apply v) := by
  unfold freeze
  split
  · rfl
  · next h =>
    split
    · rfl
    · simp only [openPatch, frozenPatch, h, SnapshotGeneration.patch_default,
        SnapshotGeneration.patch_id, Overlay.apply_empty]

omit [LinearOrder K] [DecidableEq P] in
theorem commit_of_frozen {t : GenerationState K V P T} {g : SnapshotGeneration K V P T}
    (h : t.frozen = some g) : t.commit g.id = (true, { t with frozen := none }) := by
  rw [commit, if_pos (by rw [h]; rfl)]

end GenerationState

theorem CausalState.view_toPersisted (s : CausalState K V P T) :
    s.toPersisted.view = s.view := by
  funext c
  cases c with
  | entry k =>
    simp only [PersistedState.view, PersistedState.toCausal, toPersisted, view]
    apply Option.ext
    intro e
    rw [HashMap.lookup_ofList _ s.entries.keys_toList_nodup, HashMap.mem_toList]
  | member p => rfl
  | ack k p => rfl

theorem Runtime.view_capture (r : Runtime) (s : CausalState K V P T) :
    (r.capture s).view = s.view := by
  cases r with
  | map => exact s.view_collect
  | signed => exact s.view_toPersisted

theorem PersistedState.view_extend (s : PersistedState K V P T)
    (g : SnapshotGeneration K V P T) :
    (s.extend g.persistenceDelta).view = g.patch.apply s.view := by
  rw [extend, CausalState.view_toPersisted, view_applyDelta,
    SnapshotGeneration.patch_persistenceDelta]
  rfl

namespace Journal

theorem view_recovered (j : Journal K V P T) :
    j.recovered.view = j.tracker.openPatch.apply (j.tracker.frozenPatch.apply j.durable.view) := by
  unfold recovered GenerationState.frozenPatch
  rw [view_applyDelta, SnapshotGeneration.patch_persistenceDelta]
  cases j.tracker.frozen with
  | none => rfl
  | some g =>
    simp only
    rw [view_applyDelta, SnapshotGeneration.patch_persistenceDelta]
    rfl

/-- What the attempt in flight relies on. A captured cut replays to the live state with or
without the frozen generation, since it already contains it. -/
def AttemptOk (j : Journal K V P T) : Prop :=
  match j.attempt with
  | .idle => True
  | .started frozen => j.tracker.frozen = frozen
  | .captured frozen cut => j.tracker.frozen = frozen ∧
      j.tracker.openPatch.apply cut.view = j.live.view ∧
      j.tracker.openPatch.apply (j.tracker.frozenPatch.apply cut.view) = j.live.view
  | .published frozen _ => j.tracker.frozen = frozen ∧
      j.tracker.openPatch.apply j.durable.view = j.live.view

structure Exact (j : Journal K V P T) : Prop where
  recording : j.tracker.Recording
  replay : j.tracker.openPatch.apply (j.tracker.frozenPatch.apply j.durable.view) = j.live.view
  attempt : j.AttemptOk

theorem Exact.mutate {j : Journal K V P T} (h : j.Exact) (tx : Transaction K V P T) :
    Exact { j with
      live := j.live.transact tx
      tracker := j.tracker.transact tx
      log := j.log ++ [tx] } where
  recording := h.recording.transact tx
  replay := by
    simp only [GenerationState.frozenPatch_transact]
    exact GenerationState.openPatch_transact h.recording tx h.replay
  attempt := by
    have ha := h.attempt
    unfold AttemptOk at ha ⊢
    simp only [GenerationState.frozenPatch_transact, GenerationState.frozen_transact]
    cases hj : j.attempt with
    | idle => trivial
    | started frozen =>
      rw [hj] at ha
      exact ha
    | captured frozen cut =>
      rw [hj] at ha
      obtain ⟨hf, hc, hd⟩ := ha
      exact ⟨hf, GenerationState.openPatch_transact h.recording tx hc,
        GenerationState.openPatch_transact h.recording tx hd⟩
    | published frozen full =>
      rw [hj] at ha
      exact ⟨ha.1, GenerationState.openPatch_transact h.recording tx ha.2⟩

theorem Exact.step {j j' : Journal K V P T} (h : j.Exact) (hs : Step strict j j') :
    j'.Exact := by
  have ha := h.attempt
  have hr := h.replay
  unfold AttemptOk at ha
  cases hs with
  | mutate tx => exact h.mutate tx
  | freeze hi =>
    exact ⟨h.recording.freeze, (GenerationState.apply_freeze _ _).trans hr,
      GenerationState.frozen_freeze _⟩
  | publishDelta g hg =>
    rw [hg] at ha
    simp only [GenerationState.frozenPatch, ha] at hr
    refine ⟨h.recording, ?_, ha, ?_⟩
    · simp only [GenerationState.frozenPatch, ha, PersistedState.view_extend,
        Overlay.apply_apply, hr]
    · simp only [PersistedState.view_extend, hr]
  | nothingToSave hn =>
    rw [hn] at ha
    simp only [GenerationState.frozenPatch, ha, Overlay.apply_empty] at hr
    exact ⟨h.recording, h.replay, ha, hr⟩
  | capture r frozen hf =>
    rw [hf] at ha
    refine ⟨h.recording, h.replay, ha, ?_, ?_⟩
    · simp only [Runtime.view_capture, ← hr, Overlay.apply_apply]
    · simp only [Runtime.view_capture, ← hr, Overlay.apply_apply_absorb]
  | publishFull frozen cut hc =>
    rw [hc] at ha
    obtain ⟨hf, hc, hd⟩ := ha
    exact ⟨h.recording, hd, hf, hc⟩
  | commit g full hg =>
    rw [hg] at ha
    rw [GenerationState.commit_of_frozen ha.1]
    exact ⟨⟨h.recording.trackingEnabled, h.recording.empty_open⟩, ha.2, trivial⟩
  | commitNone full hn => exact ⟨h.recording, h.replay, trivial⟩
  | fail hf => exact ⟨h.recording, h.replay, trivial⟩

theorem Exact.reachable {j₀ j : Journal K V P T} (h : j₀.Exact) (hr : Reachable strict j₀ j) :
    j.Exact := by
  induction hr with
  | refl => exact h
  | step _ hs ih => exact ih.step hs

theorem exact_of_clean {j : Journal K V P T} (hc : j.tracker.Clean)
    (hd : j.durable.view = j.live.view) (hi : j.attempt = .idle) : j.Exact where
  recording := hc.recording
  replay := by
    rw [GenerationState.frozenPatch, hc.frozen, GenerationState.openPatch, hc.openGeneration,
      SnapshotGeneration.patch_default]
    exact hd
  attempt := by
    rw [AttemptOk, hi]
    trivial

/-- Journal exactness: at every point of every run, replaying the frozen generation and then the
open one over the durable state gives the live state. -/
theorem recovered_same_live {j₀ j : Journal K V P T} (hc : j₀.tracker.Clean)
    (hi : j₀.attempt = .idle) (hd : j₀.durable.toCausal.Same j₀.live)
    (hr : Reachable false j₀ j) : j.recovered.Same j.live := by
  have he := (exact_of_clean hc ((CausalState.same_iff _ _).1 hd) hi).reachable hr
  rw [CausalState.same_iff, view_recovered]
  exact he.replay

def fresh (K V P T : Type) : Journal K V P T where
  live := {}
  tracker := {}
  durable := ⟨[], ∅, ∅⟩

/-- A full save that was published and then reported as failed, with a newer write beside it. -/
theorem recovered_same_live_failed_full : ∃ j : Journal Nat Nat Nat Nat,
    Reachable false (fresh Nat Nat Nat Nat) j ∧ j.tracker.frozen.isSome = true ∧
      j.tracker.openGeneration.isEmpty = false ∧ j.recovered.Same j.live := by
  have h₀ : Reachable false (fresh Nat Nat Nat Nat) _ := .refl
  have h₁ := h₀.step
    (.mutate _ [.entry 1 (.tombstone 5), .member 9 true, .ack 1 9 (some 3)])
  have h₂ := h₁.step (.freeze _ rfl)
  have h₃ := h₂.step (.capture _ .map _ rfl)
  have h₄ := h₃.step (.mutate _ [.entry 1 (.present 6 0), .ackKeyClear 1])
  have h₅ := h₄.step (.publishFull _ _ _ rfl)
  have h₆ := h₅.step (.fail _ (fun h => absurd h Bool.false_ne_true))
  exact ⟨_, h₆, rfl, rfl, recovered_same_live ⟨rfl, rfl, rfl⟩ rfl
    ⟨fun _ => rfl, fun _ => Iff.rfl, fun _ _ => rfl⟩ h₆⟩

end Journal

end Reconcile
