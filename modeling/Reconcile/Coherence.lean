import Reconcile.Journal

namespace Reconcile
open Lib
set_option autoImplicit true

variable {K V P T : Type} [LinearOrder K] [DecidableEq P]

theorem CausalState.replay_append (s : CausalState K V P T) (log : List (Transaction K V P T))
    (tx : Transaction K V P T) : s.replay (log ++ [tx]) = (s.replay log).transact tx :=
  List.foldl_append

/-- A view of the live state as it was at one instant, no earlier than after `n` transactions. -/
def CutFrom (s₀ : CausalState K V P T) (log : List (Transaction K V P T)) (n : Nat)
    (v : View K V P T) : Prop :=
  ∃ m, n ≤ m ∧ m ≤ log.length ∧ v = (s₀.replay (log.take m)).view

theorem CutFrom.append {s₀ : CausalState K V P T} {log : List (Transaction K V P T)} {n : Nat}
    {v : View K V P T} (h : CutFrom s₀ log n v) (more : List (Transaction K V P T)) :
    CutFrom s₀ (log ++ more) n v := by
  obtain ⟨m, hn, hm, hv⟩ := h
  refine ⟨m, hn, ?_, ?_⟩
  · rw [List.length_append]
    exact Nat.le_add_right_of_le hm
  · rw [hv, List.take_append_of_le_length hm]

theorem CutFrom.weaken {s₀ : CausalState K V P T} {log : List (Transaction K V P T)} {n n' : Nat}
    {v : View K V P T} (h : CutFrom s₀ log n v) (hn : n' ≤ n) : CutFrom s₀ log n' v := by
  obtain ⟨m, hm, hl, hv⟩ := h
  exact ⟨m, le_trans hn hm, hl, hv⟩

theorem cutFrom_now (s₀ : CausalState K V P T) (log : List (Transaction K V P T)) :
    CutFrom s₀ log log.length (s₀.replay log).view :=
  ⟨log.length, le_refl _, le_refl _, by rw [List.take_length]⟩

theorem GenerationState.frozenPatch_freeze (t : GenerationState K V P T) :
    t.freeze.2.frozenPatch = t.frozenPatch ∨ t.freeze.2.openPatch = Overlay.empty := by
  unfold freeze
  split
  · exact .inl rfl
  · split
    · exact .inl rfl
    · exact .inr SnapshotGeneration.patch_default

theorem GenerationState.Recording.frozenPatch_freeze_of_none {t : GenerationState K V P T}
    (h : t.Recording) (hf : t.frozen = none) : t.freeze.2.frozenPatch = t.openPatch := by
  by_cases he : t.openGeneration.isEmpty = true
  · have ht : t.freeze.2 = t := by simp only [GenerationState.freeze, hf, if_pos he]
    rw [ht, frozenPatch, hf, h.empty_open he]
  · have ht : t.freeze.2.frozen = some { t.openGeneration with id := t.nextId } := by
      simp only [GenerationState.freeze, hf, if_neg he]
    rw [frozenPatch, ht]
    exact SnapshotGeneration.patch_id _ _

namespace Journal

theorem live_reachable {j₀ j : Journal K V P T} (h₀ : j₀.log = [])
    (hr : Reachable strict j₀ j) : j.live = j₀.live.replay j.log := by
  induction hr with
  | refl => rw [h₀]; rfl
  | step _ hs ih =>
    cases hs with
    | mutate tx => rw [CausalState.replay_append, ← ih]
    | _ => exact ih

/-- The replayed frozen generation is the live state of the moment, or what it was before. -/
theorem Exact.cut_freeze {j : Journal K V P T} (h : j.Exact) {s₀ : CausalState K V P T}
    (hl : j.live = s₀.replay j.log)
    (hc : CutFrom s₀ j.log n (j.tracker.frozenPatch.apply j.durable.view)) (hn : n ≤ j.log.length) :
    CutFrom s₀ j.log n (j.tracker.freeze.2.frozenPatch.apply j.durable.view) := by
  rcases GenerationState.frozenPatch_freeze j.tracker with hf | ho
  · rw [hf]
    exact hc
  · have ha := (GenerationState.apply_freeze j.tracker j.durable.view).trans h.replay
    rw [ho, Overlay.apply_empty] at ha
    rw [ha, hl]
    exact (cutFrom_now s₀ j.log).weaken hn

theorem Exact.freeze_of_none {j : Journal K V P T} (h : j.Exact) (hf : j.tracker.frozen = none) :
    j.tracker.freeze.2.frozenPatch.apply j.durable.view = j.live.view := by
  rw [h.recording.frozenPatch_freeze_of_none hf, ← h.replay, GenerationState.frozenPatch, hf]
  rfl

/-- Both the durable state and what a retry would make of it are states that existed. -/
structure Coherent (s₀ : CausalState K V P T) (j : Journal K V P T) : Prop where
  durable : CutFrom s₀ j.log 0 j.durable.view
  retry : (∀ g, j.attempt ≠ .published (some g) true) →
    CutFrom s₀ j.log 0 (j.tracker.frozenPatch.apply j.durable.view)
  captured : ∀ frozen cut, j.attempt = .captured frozen cut → CutFrom s₀ j.log 0 cut.view

theorem Coherent.step {j j' : Journal K V P T} {s₀ : CausalState K V P T} (h : Coherent s₀ j)
    (he : j.Exact) (hl : j.live = s₀.replay j.log) (hs : Step true j j') : Coherent s₀ j' := by
  have ha := he.attempt
  unfold AttemptOk at ha
  cases hs with
  | mutate tx =>
    refine ⟨h.durable.append _, ?_, fun frozen cut hc => (h.captured frozen cut hc).append _⟩
    intro hp
    simp only [GenerationState.frozenPatch_transact]
    exact (h.retry hp).append _
  | freeze hi =>
    have hr := h.retry (fun g hg => by rw [hi] at hg; cases hg)
    exact ⟨h.durable, fun _ => he.cut_freeze hl hr (Nat.zero_le _), fun _ _ hc => by cases hc⟩
  | publishDelta g hg =>
    have hr := h.retry (fun g' hg' => by rw [hg] at hg'; cases hg')
    rw [hg] at ha
    simp only [GenerationState.frozenPatch, ha] at hr
    refine ⟨?_, ?_, fun _ _ hc => by cases hc⟩
    · rw [PersistedState.view_extend]
      exact hr
    · intro _
      simp only [GenerationState.frozenPatch, ha, PersistedState.view_extend, Overlay.apply_apply]
      exact hr
  | nothingToSave hn =>
    have hr := h.retry (fun g hg => by rw [hn] at hg; cases hg)
    exact ⟨h.durable, fun _ => hr, fun _ _ hc => by cases hc⟩
  | capture r frozen hf =>
    have hr := h.retry (fun g hg => by rw [hf] at hg; cases hg)
    refine ⟨h.durable, fun _ => hr, ?_⟩
    intro frozen' cut hc
    cases hc
    rw [Runtime.view_capture, hl]
    exact (cutFrom_now s₀ j.log).weaken (Nat.zero_le _)
  | publishFull frozen cut hc =>
    have hcut := h.captured frozen cut hc
    rw [hc] at ha
    refine ⟨hcut, ?_, fun _ _ hc' => by cases hc'⟩
    intro hp
    cases frozen with
    | none =>
      simp only [GenerationState.frozenPatch, ha.1, Overlay.apply_empty]
      exact hcut
    | some g => exact absurd rfl (hp g)
  | commit g full hg =>
    rw [hg] at ha
    rw [GenerationState.commit_of_frozen ha.1]
    exact ⟨h.durable, fun _ => h.durable, fun _ _ hc => by cases hc⟩
  | commitNone full hn =>
    have hr := h.retry (fun g hg => by rw [hn] at hg; cases hg)
    exact ⟨h.durable, fun _ => hr, fun _ _ hc => by cases hc⟩
  | fail hf => exact ⟨h.durable, fun _ => h.retry (hf rfl), fun _ _ hc => by cases hc⟩

theorem coherent_of_clean {j : Journal K V P T} (hc : j.tracker.Clean)
    (hd : j.durable.view = j.live.view) (hi : j.attempt = .idle) : Coherent j.live j := by
  have hcut : CutFrom j.live j.log 0 j.durable.view :=
    ⟨0, le_refl _, Nat.zero_le _, hd⟩
  refine ⟨hcut, ?_, fun _ _ h => by rw [hi] at h; cases h⟩
  intro _
  rw [GenerationState.frozenPatch, hc.frozen]
  exact hcut

theorem Coherent.reachable {j₀ j : Journal K V P T} (h : Coherent j₀.live j₀) (he : j₀.Exact)
    (h₀ : j₀.log = []) (hr : Reachable true j₀ j) : Coherent j₀.live j := by
  induction hr with
  | refl => exact h
  | step hr hs ih => exact ih.step (he.reachable hr) (live_reachable h₀ hr) hs

end Journal

end Reconcile
