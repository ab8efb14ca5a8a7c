import Reconcile.FileSnapshot
import Reconcile.FsLogic

namespace Reconcile
open Lib
set_option autoImplicit true

variable {K V P T : Type}

/-- What a store holds: at most the single-file snapshot, or a base with its committed deltas. -/
inductive Image (K V P T : Type) where
  | bare (legacy : Option (PersistedState K V P T))
  | chain (base : PersistedState K V P T) (deltas : List (PersistenceDelta K V P T))

/-- Consecutive synced delta segments after generation `gen`, and their accumulated size. -/
def DeltasAt (C : Codec K V P T) (d : Disk) :
    Nat → List (PersistenceDelta K V P T) → Nat → Nat → Prop
  | _, [], observed, total => observed = total
  | gen, delta :: deltas, observed, total => ∃ bytes,
      d (.segment .delta (gen + 1)) = some ⟨bytes, true⟩ ∧
      encodeVersion C.hash C.delta deltaMagic ⟨gen, gen + 1, delta⟩ C.version = .ok bytes ∧
      DeltasAt C d (gen + 1) deltas (saturatingAdd observed bytes.length) total

structure Committed (C : Codec K V P T) (d : Disk) (m : Manifest) (base : PersistedState K V P T)
    (deltas : List (PersistenceDelta K V P T)) : Prop where
  manifest : ∃ bytes, d .manifest = some ⟨bytes, true⟩ ∧
    encodeVersion C.hash C.manifest manifestMagic m C.version = .ok bytes
  valid : validateManifest m = .ok ()
  segment : ∃ bytes, d (.segment .base m.baseGeneration) = some ⟨bytes, true⟩ ∧
    encodeVersion C.hash C.base baseMagic ⟨m.baseGeneration, base⟩ C.version = .ok bytes ∧
    m.baseBytes = bytes.length
  chain : DeltasAt C d m.baseGeneration deltas 0 m.deltaBytes
  current : m.currentGeneration = m.baseGeneration + deltas.length
  bounded : m.currentGeneration ≤ u64Max

def LegacyAt (C : Codec K V P T) (d : Disk) : Option (PersistedState K V P T) → Prop
  | none => d .snapshot = none
  | some s => ∃ bytes, d .snapshot = some ⟨bytes, true⟩ ∧ decodeSnapshotFor C bytes = .ok s

def StoreAt (C : Codec K V P T) (d : Disk) : Image K V P T → Nat → Prop
  | .bare legacy, g => d .manifest = none ∧ LegacyAt C d legacy ∧ g = 0
  | .chain base deltas, g => ∃ m, Committed C d m base deltas ∧ m.currentGeneration = g

def FileName.ReadAt (g : Nat) : FileName → Prop
  | .manifest => True
  | .segment _ generation => generation ≤ g
  | .snapshot => True
  | .tmp _ => False

theorem DeltasAt.congr {C : Codec K V P T} {d d' : Disk} {gen observed total g : Nat}
    {deltas : List (PersistenceDelta K V P T)} (h : DeltasAt C d gen deltas observed total)
    (hg : gen + deltas.length ≤ g)
    (hd : ∀ i, i ≤ g → d' (.segment .delta i) = d (.segment .delta i)) :
    DeltasAt C d' gen deltas observed total := by
  induction deltas generalizing gen observed with
  | nil => exact h
  | cons delta deltas ih =>
    obtain ⟨bytes, hf, he, hr⟩ := h
    rw [List.length_cons] at hg
    refine ⟨bytes, ?_, he, ih hr (by omega)⟩
    rw [hd _ (by omega)]
    exact hf

theorem DeltasAt.push {C : Codec K V P T} {d : Disk} {gen observed total : Nat}
    {deltas : List (PersistenceDelta K V P T)} {delta : PersistenceDelta K V P T} {bytes : Bytes}
    (h : DeltasAt C d gen deltas observed total)
    (hf : d (.segment .delta (gen + deltas.length + 1)) = some ⟨bytes, true⟩)
    (he : encodeVersion C.hash C.delta deltaMagic
      ⟨gen + deltas.length, gen + deltas.length + 1, delta⟩ C.version = .ok bytes) :
    DeltasAt C d gen (deltas ++ [delta]) observed (saturatingAdd total bytes.length) := by
  induction deltas generalizing gen observed with
  | nil =>
    cases h
    exact ⟨bytes, hf, he, rfl⟩
  | cons delta' deltas ih =>
    obtain ⟨bytes', hf', he', hr⟩ := h
    have hl : gen + (delta' :: deltas).length = gen + 1 + deltas.length := by
      rw [List.length_cons]
      omega
    rw [hl] at hf he
    exact ⟨bytes', hf', he', ih hr hf he⟩

theorem validateManifest_eq_ok {m : Manifest} : validateManifest m = .ok () ↔
    m.baseGeneration ≠ 0 ∧ m.baseGeneration ≤ m.currentGeneration ∧ m.baseBytes ≠ 0 ∧
      (m.baseGeneration = m.currentGeneration → m.deltaBytes = 0) ∧
      (m.baseGeneration < m.currentGeneration → m.deltaBytes ≠ 0) := by
  unfold validateManifest
  constructor
  · intro h
    split at h
    · cases h
    split at h
    · cases h
    split at h
    · cases h
    split at h
    · cases h
    next h₁ h₂ h₃ h₄ => exact ⟨by omega, by omega, h₂, by omega, by omega⟩
  · rintro ⟨h₁, h₂, h₃, h₄, h₅⟩
    rw [if_neg (by omega), if_neg h₃, if_neg (by omega), if_neg (by omega)]

theorem Committed.congr {C : Codec K V P T} {d d' : Disk} {m : Manifest}
    {base : PersistedState K V P T} {deltas : List (PersistenceDelta K V P T)}
    (h : Committed C d m base deltas)
    (hd : ∀ name, name.ReadAt m.currentGeneration → d' name = d name) :
    Committed C d' m base deltas := by
  obtain ⟨_, hle, _⟩ := validateManifest_eq_ok.1 h.valid
  refine ⟨?_, h.valid, ?_, ?_, h.current, h.bounded⟩
  · rw [hd .manifest trivial]
    exact h.manifest
  · rw [hd (.segment .base m.baseGeneration) hle]
    exact h.segment
  · exact h.chain.congr (Nat.le_of_eq h.current.symm) fun i hi => hd (.segment .delta i) hi

/-- Files beyond the current generation and temporary files do not matter. -/
theorem StoreAt.congr {C : Codec K V P T} {d d' : Disk} {A : Image K V P T} {g : Nat}
    (h : StoreAt C d A g) (hd : ∀ name, name.ReadAt g → d' name = d name) : StoreAt C d' A g := by
  cases A with
  | bare legacy =>
    obtain ⟨hm, hl, hg⟩ := h
    refine ⟨(hd .manifest trivial).trans hm, ?_, hg⟩
    cases legacy with
    | none => exact (hd .snapshot trivial).trans hl
    | some s =>
      obtain ⟨bytes, hf, hs⟩ := hl
      exact ⟨bytes, (hd .snapshot trivial).trans hf, hs⟩
  | chain base deltas =>
    obtain ⟨m, hc, hg⟩ := h
    subst hg
    exact ⟨m, hc.congr hd, rfl⟩

theorem Disk.crash_synced {d : Disk} {name : FileName} {bytes : Bytes}
    (h : d name = some ⟨bytes, true⟩) (torn : FileName → Option Bytes) :
    d.crash torn name = some ⟨bytes, true⟩ := by
  simp only [Disk.crash, h, ↓reduceIte]

theorem Disk.crash_none {d : Disk} {name : FileName} (h : d name = none)
    (torn : FileName → Option Bytes) : d.crash torn name = none := by
  simp only [Disk.crash, h]

theorem DeltasAt.crash {C : Codec K V P T} {d : Disk} {gen observed total : Nat}
    {deltas : List (PersistenceDelta K V P T)} (h : DeltasAt C d gen deltas observed total)
    (torn : FileName → Option Bytes) : DeltasAt C (d.crash torn) gen deltas observed total := by
  induction deltas generalizing gen observed with
  | nil => exact h
  | cons delta deltas ih =>
    obtain ⟨bytes, hf, he, hr⟩ := h
    exact ⟨bytes, Disk.crash_synced hf torn, he, ih hr⟩

/-- A store only rests on synced files. -/
theorem StoreAt.crash {C : Codec K V P T} {d : Disk} {A : Image K V P T} {g : Nat}
    (h : StoreAt C d A g) (torn : FileName → Option Bytes) : StoreAt C (d.crash torn) A g := by
  cases A with
  | bare legacy =>
    obtain ⟨hm, hl, hg⟩ := h
    refine ⟨Disk.crash_none hm torn, ?_, hg⟩
    cases legacy with
    | none => exact Disk.crash_none hl torn
    | some s =>
      obtain ⟨bytes, hf, hs⟩ := hl
      exact ⟨bytes, Disk.crash_synced hf torn, hs⟩
  | chain base deltas =>
    obtain ⟨m, hc, hg⟩ := h
    obtain ⟨mb, hmf, hme⟩ := hc.manifest
    obtain ⟨bb, hbf, hbe⟩ := hc.segment
    exact ⟨m, ⟨⟨mb, Disk.crash_synced hmf torn, hme⟩, hc.valid,
      ⟨bb, Disk.crash_synced hbf torn, hbe⟩, hc.chain.crash torn, hc.current, hc.bounded⟩, hg⟩

def ManifestAt (C : Codec K V P T) (d : Disk) : Option Manifest → Prop
  | none => d .manifest = none
  | some m => ∃ bytes, d .manifest = some ⟨bytes, true⟩ ∧ decodeManifest C bytes = .ok m

theorem Committed.manifestAt {C : Codec K V P T} {d : Disk} {m : Manifest}
    {base : PersistedState K V P T} {deltas : List (PersistenceDelta K V P T)}
    (h : Committed C d m base deltas) : ManifestAt C d (some m) := by
  obtain ⟨bytes, hf, he⟩ := h.manifest
  refine ⟨bytes, hf, ?_⟩
  have hd := decodeVersion_encodeVersion rfl C.hash_length he
  simp only [decodeManifest, hd, h.valid, bind, Except.bind, pure, Except.pure]

theorem quiet_readManifestVersion {C : Codec K V P T} {d : Disk} {m : Option Manifest}
    (h : ManifestAt C d m) : (readManifestVersion C).quiet d = (.ok m, d) := by
  cases m with
  | none =>
    rw [ManifestAt] at h
    simp only [readManifestVersion, Fs.quiet_bind, Fs.quiet_attempt, Fs.quiet_read, h,
      IoError.kind, ↓reduceIte, Fs.quiet_pure]
  | some m =>
    obtain ⟨bytes, hf, hm⟩ := h
    simp only [readManifestVersion, Fs.quiet_bind, Fs.quiet_attempt, Fs.quiet_read, hf,
      Fs.quiet_ofExcept, hm, Fs.quiet_pure]

theorem ManifestAt.unique {C : Codec K V P T} {d : Disk} {m m' : Option Manifest}
    (h : ManifestAt C d m) (h' : ManifestAt C d m') : m = m' := by
  have hq := (quiet_readManifestVersion h).symm.trans (quiet_readManifestVersion h')
  exact Except.ok.inj (congrArg Prod.fst hq)

theorem quiet_readSegmentBytes {d : Disk} {kind : SegmentKind} {generation : Nat} {bytes : Bytes}
    {expected : Option Nat} (hf : d (.segment kind generation) = some ⟨bytes, true⟩)
    (he : expected = none ∨ expected = some bytes.length) :
    (readSegmentBytes kind generation expected).quiet d = (.ok bytes, d) := by
  simp only [readSegmentBytes, Fs.quiet_bind, Fs.quiet_attempt, Fs.quiet_read, hf]
  rcases he with he | he <;> subst he
  · rfl
  · simp only [ne_eq, not_true_eq_false, ↓reduceIte, Fs.quiet_pure]

variable [LinearOrder K] [DecidableEq P]

def Image.loaded : Image K V P T → Option (PersistedState K V P T)
  | .bare legacy => legacy
  | .chain base [] => some base
  | .chain base (delta :: deltas) =>
    some ((delta :: deltas).foldl applyDelta base.toCausal).toPersisted

/-- An absent snapshot stands for the empty state. -/
def Image.view (A : Image K V P T) : View K V P T :=
  match A.loaded with
  | some s => s.view
  | none => ({} : CausalState K V P T).view

theorem Image.view_chain (base : PersistedState K V P T)
    (deltas : List (PersistenceDelta K V P T)) :
    (Image.chain base deltas).view = (deltas.foldl applyDelta base.toCausal).view := by
  cases deltas with
  | nil => rfl
  | cons delta deltas => exact CausalState.view_toPersisted _

theorem Image.view_push (base : PersistedState K V P T)
    (deltas : List (PersistenceDelta K V P T)) (delta : PersistenceDelta K V P T) :
    (Image.chain base (deltas ++ [delta])).view =
      delta.patch.apply (Image.chain base deltas).view := by
  rw [view_chain, view_chain, List.foldl_append]
  exact view_applyDelta _ _

theorem quiet_recoverDeltas {C : Codec K V P T} {d : Disk} {gen observed total : Nat}
    {deltas : List (PersistenceDelta K V P T)} (h : DeltasAt C d gen deltas observed total)
    (state : CausalState K V P T) :
    (recoverDeltas C (List.range' (gen + 1) deltas.length) state observed).quiet d =
      (.ok (deltas.foldl applyDelta state, total), d) := by
  induction deltas generalizing gen observed state with
  | nil =>
    cases h
    rfl
  | cons delta deltas ih =>
    obtain ⟨bytes, hf, he, hr⟩ := h
    have hd := decodeVersion_encodeVersion rfl C.hash_length he
    rw [List.length_cons, List.range'_succ]
    simp only [recoverDeltas, Fs.quiet_bind, quiet_readSegmentBytes hf (.inl rfl), hd,
      Fs.quiet_ofExcept, Nat.add_sub_cancel, ne_eq, not_true_eq_false, or_self, ↓reduceIte]
    exact ih hr _

theorem quiet_recoverManifest {C : Codec K V P T} {d : Disk} {m : Manifest}
    {base : PersistedState K V P T} {deltas : List (PersistenceDelta K V P T)}
    (h : Committed C d m base deltas) :
    ∃ s, (Image.chain base deltas).loaded = some s ∧
      (recoverManifest C m).quiet d = (.ok s, d) := by
  obtain ⟨bytes, hf, he, hl⟩ := h.segment
  have hb := decodeVersion_encodeVersion rfl C.hash_length he
  simp only [recoverManifest, hl, Fs.quiet_bind, Fs.quiet_ofExcept, hb, ne_eq, not_true_eq_false,
    ↓reduceIte, quiet_readSegmentBytes hf (.inr rfl)]
  cases deltas with
  | nil =>
    have hc : m.currentGeneration = m.baseGeneration := h.current
    refine ⟨base, rfl, ?_⟩
    rw [if_pos hc, Fs.quiet_pure]
  | cons delta deltas =>
    have hc := h.current
    have hbound := h.bounded
    rw [List.length_cons] at hc
    have hfirst : saturatingAdd m.baseGeneration 1 = m.baseGeneration + 1 := by
      rw [saturatingAdd]
      omega
    have hlen : m.currentGeneration + 1 - (m.baseGeneration + 1) = (delta :: deltas).length := by
      rw [List.length_cons]
      omega
    refine ⟨_, rfl, ?_⟩
    rw [if_neg (by omega), Fs.quiet_bind, hfirst, hlen, quiet_recoverDeltas h.chain]
    simp only [not_true_eq_false, ↓reduceIte, Fs.quiet_pure]

/-- A store in place loads as its image. -/
theorem StoreAt.load {C : Codec K V P T} {d : Disk} {A : Image K V P T} {g : Nat}
    (h : StoreAt C d A g) : (load C).quiet d = (.ok A.loaded, d) := by
  cases A with
  | bare legacy =>
    obtain ⟨hm, hl, _⟩ := h
    have hr : (readManifestVersion C).quiet d = (.ok none, d) := quiet_readManifestVersion hm
    simp only [Reconcile.load, loadFor, loadSnapshot, Fs.quiet_bind, hr, Fs.quiet_pure,
      Fs.quiet_attempt, Fs.quiet_read]
    cases legacy with
    | none =>
      simp only [LegacyAt] at hl
      simp only [hl, IoError.kind, ↓reduceIte, Fs.quiet_pure, Image.loaded]
    | some s =>
      obtain ⟨bytes, hf, hs⟩ := hl
      simp only [hf, Fs.quiet_bind, Fs.quiet_ofExcept, hs, Fs.quiet_pure, Image.loaded]
  | chain base deltas =>
    obtain ⟨m, hc, _⟩ := h
    obtain ⟨s, hs, hr⟩ := quiet_recoverManifest hc
    simp only [Reconcile.load, loadFor, Fs.quiet_bind, quiet_readManifestVersion hc.manifestAt, hr,
      Fs.quiet_pure, hs]

end Reconcile
