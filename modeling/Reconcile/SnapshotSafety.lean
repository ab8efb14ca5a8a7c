import Reconcile.Snapshot

namespace Reconcile
open Lib
set_option autoImplicit true

variable {K V P T : Type} [LinearOrder K] [DecidableEq P]

def Memory.journal (m : Memory K V P T) (durable : PersistedState K V P T)
    (attempt : Attempt K V P T) : Journal K V P T :=
  ⟨m.live, m.tracker, durable, attempt, m.log⟩

def Journaled (strict : Bool) (j₀ : Journal K V P T) (a : Attempt K V P T) (v : View K V P T)
    (m : Memory K V P T) : Prop :=
  ∃ durable, durable.view = v ∧ Journal.Reachable strict j₀ (m.journal durable a)

namespace Journaled

variable {strict : Bool} {j₀ : Journal K V P T} {a : Attempt K V P T} {v : View K V P T}
variable {m m' : Memory K V P T} {frozen : Option (SnapshotGeneration K V P T)}

theorem writers (h : Journaled strict j₀ a v m) (hw : writers.rel m m') :
    Journaled strict j₀ a v m' := by
  obtain ⟨txs, rfl⟩ := hw
  induction txs generalizing m with
  | nil => exact h
  | cons tx txs ih =>
    obtain ⟨durable, hv, hr⟩ := h
    exact ih ⟨durable, hv, hr.step (.mutate _ tx)⟩

theorem freeze (h : Journaled strict j₀ .idle v m) :
    Journaled strict j₀ (.started m.tracker.freeze.1) v
      { m with tracker := m.tracker.freeze.2 } := by
  obtain ⟨durable, hv, hr⟩ := h
  exact ⟨durable, hv, hr.step (.freeze _ rfl)⟩

theorem extend {A : Image K V P T} (h : Journaled strict j₀ (.started frozen) A.view m)
    (hA : ∃ base deltas, A = .chain base deltas) :
    Journaled strict j₀ (.published frozen false) (A.extend (frozen.map (·.persistenceDelta))).view
      m := by
  obtain ⟨durable, hv, hr⟩ := h
  obtain ⟨base, deltas, rfl⟩ := hA
  cases frozen with
  | none => exact ⟨durable, hv, hr.step (.nothingToSave _ rfl)⟩
  | some g =>
    refine ⟨durable.extend g.persistenceDelta, ?_, hr.step (.publishDelta _ g rfl)⟩
    rw [PersistedState.view_extend, hv]
    simp only [Option.map_some, Image.extend, Image.view_push,
      SnapshotGeneration.patch_persistenceDelta]

theorem capture (h : Journaled strict j₀ (.started frozen) v m) (r : Runtime) :
    Journaled strict j₀ (.captured frozen (r.capture m.live)) v m := by
  obtain ⟨durable, hv, hr⟩ := h
  exact ⟨durable, hv, hr.step (.capture _ r frozen rfl)⟩

theorem frozen_eq {cut : PersistedState K V P T} (h₀ : j₀.Exact)
    (h : Journaled strict j₀ (.captured frozen cut) v m) : m.tracker.frozen = frozen := by
  obtain ⟨durable, _, hr⟩ := h
  exact (h₀.reachable hr).attempt.1

theorem publishFull {cut : PersistedState K V P T}
    (h : Journaled strict j₀ (.captured frozen cut) v m) :
    Journaled strict j₀ (.published frozen true) (Image.chain cut []).view m := by
  obtain ⟨durable, _, hr⟩ := h
  exact ⟨cut, rfl, hr.step (.publishFull _ frozen cut rfl)⟩

theorem fail (h : Journaled strict j₀ a v m)
    (ha : strict = true → ∀ g, a ≠ .published (some g) true) : Journaled strict j₀ .idle v m := by
  obtain ⟨durable, hv, hr⟩ := h
  exact ⟨durable, hv, hr.step (.fail _ ha)⟩

theorem commitNone (h : Journaled strict j₀ (.published none full) v m) :
    Journaled strict j₀ .idle v m := by
  obtain ⟨durable, hv, hr⟩ := h
  exact ⟨durable, hv, hr.step (.commitNone _ full rfl)⟩

theorem commit {g : SnapshotGeneration K V P T} (h₀ : j₀.Exact)
    (h : Journaled strict j₀ (.published (some g) full) v m) :
    (m.tracker.commit g.id).1 = true ∧
      Journaled strict j₀ .idle v { m with tracker := (m.tracker.commit g.id).2 } := by
  obtain ⟨durable, hv, hr⟩ := h
  have hf : m.tracker.frozen = some g := (h₀.reachable hr).attempt.1
  refine ⟨?_, durable, hv, hr.step (.commit _ g full rfl)⟩
  rw [GenerationState.commit_of_frozen hf]

end Journaled

section Attempt

variable (strict : Bool) (C : Codec K V P T) (j₀ : Journal K V P T)

/-- The environment's decisions. In a strict run the directory sync after the manifest rename of a
full save does not fail while a frozen generation is pending. -/
def Admits (o : SysOp) (e : Decision) (s : Disk × Memory K V P T) : Prop :=
  strict = true → o = .inl (.effect (.syncParent .manifest)) → (∃ w, e = .fail w) →
    fullPublished C s.1 = true → s.2.tracker.frozen = none

/-- Interrupted anywhere, the node has a store in place and a journal behind it. -/
def Safe (s : Disk × Memory K V P T) : Prop :=
  ∃ a A g, StoreAt C s.1 A g ∧ Journaled strict j₀ a A.view s.2

/-- The call that begins here can be satisfied with the pending generation, or without it. -/
def Drains (s : Disk × Memory K V P T) : Prop :=
  s.2.tracker.frozen = none ∨ s.2.tracker.openGeneration.isEmpty = true ∨
    ∃ g, s.2.tracker.frozen = some g ∧ Declines C s.1 g.persistenceDelta

/-- What a returned call has achieved: no panic, and after `Ok` a state to load that covers the
first `n` transactions, provided `D`. -/
def Returned (n : Nat) (D : Prop) (res : SnapshotResult) (s : Disk × Memory K V P T) : Prop :=
  ∃ A g, StoreAt C s.1 A g ∧ Journaled strict j₀ .idle A.view s.2 ∧ res ≠ .panicked ∧
    (res = .ok → (∃ st, A.loaded = some st) ∧ (D → CutFrom j₀.live s.2.log n A.view))

end Attempt

theorem log_writers {m m' : Memory K V P T} (h : writers.rel m m') :
    ∃ more, m'.log = m.log ++ more := by
  obtain ⟨txs, rfl⟩ := h
  induction txs generalizing m with
  | nil => exact ⟨[], (List.append_nil _).symm⟩
  | cons tx txs ih =>
    obtain ⟨more, hm⟩ := @ih (m.transact tx)
    exact ⟨tx :: more, hm.trans (List.append_assoc ..)⟩

theorem frozen_writers {m m' : Memory K V P T} (h : writers.rel m m') :
    m'.tracker.frozen = m.tracker.frozen := by
  obtain ⟨txs, rfl⟩ := h
  induction txs generalizing m with
  | nil => rfl
  | cons tx txs ih => exact ih.trans (GenerationState.frozen_transact m.tracker tx)

theorem CutFrom.writers {m m' : Memory K V P T} {s₀ : CausalState K V P T} {n : Nat}
    {v : View K V P T} (h : CutFrom s₀ m.log n v) (hw : writers.rel m m') :
    CutFrom s₀ m'.log n v := by
  obtain ⟨more, hm⟩ := log_writers hw
  rw [hm]
  exact h.append more

omit [LinearOrder K] [DecidableEq P] in
theorem StoreAt.fullPublished {C : Codec K V P T} {d : Disk} {s : PersistedState K V P T}
    {g : Nat} (h : StoreAt C d (.chain s []) g) : fullPublished C d = true := by
  obtain ⟨m, hc, _⟩ := h
  have hb : m.baseGeneration = m.currentGeneration := hc.current.symm
  simp only [Reconcile.fullPublished, quiet_readManifestVersion hc.manifestAt, hb, decide_true]

section Attempt

variable {strict : Bool} {C : Codec K V P T} {j₀ : Journal K V P T} {r : Runtime}
variable {d : Disk} {m : Memory K V P T} {A : Image K V P T} {g n : Nat} {D : Prop}
variable {frozen : Option (SnapshotGeneration K V P T)}

theorem always_return {res : SnapshotResult} (hs : StoreAt C d A g)
    (hj : Journaled strict j₀ .idle A.view m) (hp : res ≠ .panicked)
    (hok : res = .ok → (∃ st, A.loaded = some st) ∧ (D → CutFrom j₀.live m.log n A.view)) :
    Prog.Always (runtime r) (.second Disk writers) (Admits strict C) (Safe strict C j₀)
      (.pure res) (Returned strict C j₀ n D) (d, m) := by
  rintro ⟨d', m'⟩ ⟨hd, hw⟩
  cases hd
  have hj' := hj.writers hw
  exact ⟨⟨.idle, A, g, hs, hj'⟩, A, g, hs, hj', hp,
    fun hr => ⟨(hok hr).1, fun hD => ((hok hr).2 hD).writers hw⟩⟩

theorem always_retire {full : Bool} (h₀ : j₀.Exact) (hs : StoreAt C d A g)
    (hj : Journaled strict j₀ (.published frozen full) A.view m)
    (hl : ∃ st, A.loaded = some st) (hcut : D → CutFrom j₀.live m.log n A.view) :
    Prog.Always (runtime r) (.second Disk writers) (Admits strict C) (Safe strict C j₀)
      (retire frozen) (Returned strict C j₀ n D) (d, m) := by
  cases frozen with
  | none => exact always_return hs hj.commitNone nofun fun _ => ⟨hl, hcut⟩
  | some gen =>
    rintro ⟨d', m'⟩ ⟨hd, hw⟩
    cases hd
    have hj' := hj.writers hw
    have hcut' : D → CutFrom j₀.live m'.log n A.view := fun hD => (hcut hD).writers hw
    refine ⟨⟨_, A, g, hs, hj'⟩, fun e _ => ?_⟩
    obtain ⟨hc, hi⟩ := hj'.commit h₀
    change Prog.Always _ _ _ _ (.pure (if (m'.tracker.commit gen.id).1 then _ else _)) _ _
    rw [hc]
    exact always_return hs hi nofun fun _ => ⟨hl, hcut'⟩

theorem always_disk {p : Prog FsOp FsOp.Ans α} {I : Disk → Prop} {Q : α → Disk → Prop}
    (h : Prog.Always fileSystem (.alone Disk)
      (fun o e d => ∃ m', writers.rel m m' ∧ Admits strict C (.inl o) e (d, m')) I p Q d)
    {f : α → SysProg K V P T} {Q' : SnapshotResult → Disk × Memory K V P T → Prop}
    (hI : ∀ d' m', writers.rel m m' → I d' → Safe strict C j₀ (d', m'))
    (hf : ∀ a d' m', writers.rel m m' → Q a d' →
      Prog.Always (runtime r) (.second Disk writers) (Admits strict C) (Safe strict C j₀)
        (f a) Q' (d', m')) :
    Prog.Always (runtime r) (.second Disk writers) (Admits strict C) (Safe strict C j₀)
      (p.inl.bind f) Q' (d, m) := by
  have hl : Prog.Always (runtime r) (.second Disk writers) (Admits strict C)
      (fun s => I s.1 ∧ writers.rel m s.2) (p.inl : Prog SysOp (SysOp.Ans K V P T) α)
      (fun a s => Q a s.1 ∧ writers.rel m s.2) (d, m) :=
    h.inl (fun _ _ _ _ => rfl) (fun _ _ _ m' hw ha => ⟨m', hw, ha⟩) (writers.refl m)
  refine (hl.mono (fun s hs => hI s.1 s.2 hs.2 hs.1) fun _ _ h => h).bind ?_
  intro a s _ hQ
  exact hf a s.1 s.2 hQ.2 hQ.1

/-- The full fallback: the cut covers everything written before it is taken. -/
theorem always_full (h₀ : j₀.Exact) (hlog : j₀.log = []) (hs : StoreAt C d A g) (hg : g < u64Max)
    (hj : Journaled strict j₀ (.started frozen) A.view m) (hn : n ≤ m.log.length) :
    Prog.Always (runtime r) (.second Disk writers) (Admits strict C) (Safe strict C j₀)
      (.call (.inr .capture) fun (state : PersistedState K V P T) =>
        ((saveFullFor C state).run.inl).bind fun
          | .ok _ => retire frozen
          | .error err => .pure (.err err)) (Returned strict C j₀ n D) (d, m) := by
  rintro ⟨d₁, m₁⟩ ⟨hd, hw⟩
  cases hd
  have hj₁ := (hj.writers hw)
  refine ⟨⟨_, A, g, hs, hj₁⟩, fun e _ => ?_⟩
  have hcap := hj₁.capture r
  have hlive : (Image.chain (r.capture m₁.live) []).view = (j₀.live.replay m₁.log).view := by
    obtain ⟨durable, _, hr⟩ := hj₁
    have hl : m₁.live = j₀.live.replay m₁.log := Journal.live_reachable hlog hr
    rw [← hl]
    exact r.view_capture m₁.live
  have hcut : CutFrom j₀.live m₁.log n (Image.chain (r.capture m₁.live) []).view := by
    obtain ⟨more, hm⟩ := log_writers hw
    rw [hlive]
    refine (cutFrom_now j₀.live m₁.log).weaken ?_
    rw [hm, List.length_append]
    exact Nat.le_add_right_of_le hn
  refine always_disk (ensures_saveFullFor hs hg) ?_ ?_
  · rintro d' m' hw' (h' | h')
    · exact ⟨_, A, g, h', hcap.writers hw'⟩
    · exact ⟨_, _, g + 1, h', hcap.publishFull.writers hw'⟩
  · rintro (err | u) d' m' hw' hres
    · rcases hres with h' | ⟨h', w, m'', hw'', ha⟩
      · exact always_return h' ((hcap.writers hw').fail fun _ _ => nofun) nofun nofun
      · refine always_return h' ((hcap.publishFull.writers hw').fail ?_) nofun nofun
        intro hstrict gen hp
        have hnone : m₁.tracker.frozen = none :=
          (frozen_writers hw'').symm.trans (ha hstrict rfl ⟨w, rfl⟩ h'.fullPublished)
        have hfrozen : m₁.tracker.frozen = frozen := hcap.frozen_eq h₀
        rw [hnone] at hfrozen
        subst hfrozen
        cases hp
    · exact always_retire h₀ hres (hcap.publishFull.writers hw') ⟨_, rfl⟩
        fun _ => hcut.writers hw'

def Covered (C : Codec K V P T) (s₀ : CausalState K V P T) (n : Nat) (v : View K V P T) (d : Disk)
    (m : Memory K V P T) : Prop :=
  m.tracker.frozen = none ∨ CutFrom s₀ m.log n (m.tracker.frozenPatch.apply v) ∨
    ∃ g, m.tracker.frozen = some g ∧ Declines C d g.persistenceDelta

theorem frozenPatch_eq {t t' : GenerationState K V P T} (h : t'.frozen = t.frozen) :
    t'.frozenPatch = t.frozenPatch := by
  rw [GenerationState.frozenPatch, h, GenerationState.frozenPatch]

theorem Covered.writers {m' : Memory K V P T} {v : View K V P T}
    (h : Covered C j₀.live n v d m) (hw : writers.rel m m') : Covered C j₀.live n v d m' := by
  have hf := frozen_writers hw
  rcases h with h | h | ⟨gen, h, hd⟩
  · exact .inl (hf.trans h)
  · refine .inr (.inl ?_)
    rw [frozenPatch_eq hf]
    exact h.writers hw
  · exact .inr (.inr ⟨gen, hf.trans h, hd⟩)

theorem Drains.covered (h : Drains C (d, m)) (h₀ : j₀.Exact) (hlog : j₀.log = [])
    (hj : Journaled strict j₀ .idle A.view m) :
    Covered C j₀.live m.log.length A.view d m := by
  obtain ⟨durable, hv, hr⟩ := hj
  have he := h₀.reachable hr
  have hl : m.live = j₀.live.replay m.log := Journal.live_reachable hlog hr
  rcases h with h | h | h
  · exact .inl h
  · refine .inr (.inl ?_)
    have hrep : m.tracker.openPatch.apply (m.tracker.frozenPatch.apply durable.view) =
      m.live.view := he.replay
    have ho : m.tracker.openPatch = Overlay.empty := he.recording.empty_open h
    rw [ho, Overlay.apply_empty, hv] at hrep
    rw [hrep, hl]
    exact cutFrom_now j₀.live m.log
  · exact .inr (.inr h)

/-- After the freeze the pending generation covers the call, or the backend will decline it. -/
theorem Covered.freeze (h : Covered C j₀.live n A.view d m) (h₀ : j₀.Exact) (hlog : j₀.log = [])
    (hj : Journaled strict j₀ .idle A.view m) (hn : n ≤ m.log.length) :
    CutFrom j₀.live m.log n (m.tracker.freeze.2.frozenPatch.apply A.view) ∨
      ∃ gen, m.tracker.freeze.1 = some gen ∧ Declines C d gen.persistenceDelta := by
  obtain ⟨durable, hv, hr⟩ := hj
  have he := h₀.reachable hr
  have hl : m.live = j₀.live.replay m.log := Journal.live_reachable hlog hr
  rw [← hv] at h ⊢
  rcases h with h | h | ⟨gen, h, hd⟩
  · refine .inl ?_
    have hf : m.tracker.freeze.2.frozenPatch.apply durable.view = m.live.view :=
      he.freeze_of_none h
    rw [hf, hl]
    exact (cutFrom_now j₀.live m.log).weaken hn
  · exact .inl (he.cut_freeze hl h hn)
  · refine .inr ⟨gen, ?_, hd⟩
    simp only [GenerationState.freeze, h]

theorem view_extend (hA : ∃ base deltas, A = .chain base deltas) {t : GenerationState K V P T}
    (ht : t.frozen = frozen) :
    (A.extend (frozen.map (·.persistenceDelta))).view = t.frozenPatch.apply A.view := by
  obtain ⟨base, deltas, rfl⟩ := hA
  rw [GenerationState.frozenPatch, ht]
  cases frozen with
  | none => rfl
  | some g =>
    simp only [Option.map_some, Image.extend, Image.view_push,
      SnapshotGeneration.patch_persistenceDelta]

theorem exists_loaded (hA : ∃ base deltas, A = .chain base deltas)
    (delta : Option (PersistenceDelta K V P T)) : ∃ st, (A.extend delta).loaded = some st := by
  obtain ⟨base, deltas, rfl⟩ := hA
  cases delta <;> cases deltas <;> exact ⟨_, rfl⟩

theorem always_save (h₀ : j₀.Exact) (hlog : j₀.log = []) (hs : StoreAt C d A g) (hg : g < u64Max)
    (hj : Journaled strict j₀ (.started frozen) A.view m) (hf : m.tracker.frozen = frozen)
    (hn : n ≤ m.log.length)
    (hcov : D → CutFrom j₀.live m.log n (m.tracker.frozenPatch.apply A.view) ∨
      ∃ gen, frozen = some gen ∧ Declines C d gen.persistenceDelta) :
    Prog.Always (runtime r) (.second Disk writers) (Admits strict C) (Safe strict C j₀)
      (((trySaveDeltaFor C (frozen.map (·.persistenceDelta))).run.inl).bind fun
        | .ok true => retire frozen
        | .ok false =>
          .call (.inr .capture) fun (state : PersistedState K V P T) =>
            ((saveFullFor C state).run.inl).bind fun
              | .ok _ => retire frozen
              | .error err => .pure (.err err)
        | .error err => .pure (.err err)) (Returned strict C j₀ n D) (d, m) := by
  have hext : ∃ a, (∀ gen, a ≠ .published (some gen) true) ∧ Journaled strict j₀ a
      (A.extend (frozen.map (·.persistenceDelta))).view m := by
    cases A with
    | bare legacy => exact ⟨.started frozen, fun _ h => (nomatch h), hj⟩
    | chain base deltas =>
      exact ⟨.published frozen false, fun _ h => (nomatch h), hj.extend ⟨base, deltas, rfl⟩⟩
  obtain ⟨a, ha, hja⟩ := hext
  refine always_disk (ensures_trySaveDeltaFor hs hg) ?_ ?_
  · rintro d' m' hw (h' | h')
    · exact ⟨_, A, g, h', hj.writers hw⟩
    · exact ⟨a, _, g + 1, h', hja.writers hw⟩
  · rintro (err | b) d' m' hw hres
    · rcases hres with h' | h'
      · exact always_return h' ((hj.writers hw).fail fun _ _ h => nomatch h) nofun nofun
      · exact always_return h' ((hja.writers hw).fail fun _ => ha) nofun nofun
    · cases b with
      | false =>
        refine always_full h₀ hlog hres hg (hj.writers hw) ?_
        obtain ⟨more, hm⟩ := log_writers hw
        rw [hm, List.length_append]
        exact Nat.le_add_right_of_le hn
      | true =>
        obtain ⟨⟨g', _, h'⟩, hchain, hacc⟩ := hres
        refine always_retire h₀ h' ((hj.extend hchain).writers hw) (exists_loaded hchain _) ?_
        intro hD
        rw [view_extend hchain hf]
        rcases hcov hD with hcut | ⟨gen, rfl, hdec⟩
        · exact hcut.writers hw
        · exact absurd hdec (hacc _ rfl)

theorem always_snapshotInner (h₀ : j₀.Exact) (hlog : j₀.log = []) (hs : StoreAt C d A g)
    (hg : g < u64Max) (hj : Journaled strict j₀ .idle A.view m) :
    Prog.Always (runtime r) (.second Disk writers) (Admits strict C) (Safe strict C j₀)
      (snapshotInner C) (Returned strict C j₀ m.log.length (Drains C (d, m))) (d, m) := by
  rintro ⟨d₁, m₁⟩ ⟨hd, hw⟩
  cases hd
  have hj₁ := hj.writers hw
  refine ⟨⟨_, A, g, hs, hj₁⟩, fun e _ => ?_⟩
  have hn : m.log.length ≤ m₁.log.length := by
    obtain ⟨more, hm⟩ := log_writers hw
    rw [hm, List.length_append]
    exact Nat.le_add_right _ _
  exact always_save h₀ hlog hs hg hj₁.freeze (GenerationState.frozen_freeze m₁.tracker) hn
    fun hD => ((Drains.covered hD h₀ hlog hj).writers hw).freeze h₀ hlog hj₁ hn

end Attempt

end Reconcile
