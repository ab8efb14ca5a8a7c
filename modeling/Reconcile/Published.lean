import Reconcile.CrashSafety

namespace Reconcile
open Lib
set_option autoImplicit true

variable {K V P T : Type}

structure Manifest.Within (m : Manifest) : Prop where
  count : m.deltaCount ≤ maxCommittedDeltas
  bytes : m.deltaCount ≠ 0 → m.deltaBytes < m.baseBytes

def Manifest.Refers (m : Manifest) : FileName → Prop
  | .segment .base i => i = m.baseGeneration
  | .segment .delta i => m.baseGeneration < i ∧ i ≤ m.currentGeneration
  | _ => False

def Codec.Words (C : Codec K V P T) : Prop :=
  ∀ m body, C.manifest.serialize m = some body → m.baseBytes ≤ u64Max

def ObjectAt (C : Codec K V P T) (codec : Bincode α) (magic : Bytes) (d : Disk) (name : FileName)
    (value : α) (n : Nat) : Prop :=
  ∃ bytes, d name = some ⟨bytes, true⟩ ∧
    encodeVersion C.hash codec magic value C.version = .ok bytes ∧ bytes.length = n

/-- The manifest is published, and the segments it refers to say where they belong. This holds
past the last generation too, where a base or a delta may since have been replaced. -/
structure Held (C : Codec K V P T) (d : Disk) (m : Manifest) : Prop where
  manifest : ∃ n, ObjectAt C C.manifest manifestMagic d .manifest m n
  valid : validateManifest m = .ok ()
  within : m.Within
  bounded : m.currentGeneration ≤ u64Max
  base : ∃ state n, ObjectAt C C.base baseMagic d (.segment .base m.baseGeneration)
    ⟨m.baseGeneration, state⟩ n ∧ (m.baseGeneration ≠ u64Max → n = m.baseBytes)
  deltas : ∀ i, m.baseGeneration < i → i ≤ m.currentGeneration → ∃ origin delta n,
    ObjectAt C C.delta deltaMagic d (.segment .delta i) ⟨origin, i, delta⟩ n ∧ n < m.baseBytes

def Published (C : Codec K V P T) (d : Disk) : Option Manifest → Prop
  | none => d .manifest = none
  | some m => Held C d m

def nextGeneration : Option Manifest → Nat
  | none => 1
  | some m => saturatingAdd m.currentGeneration 1

/-- The image that the calls have committed, each taken at its word. -/
inductive Commits (C : Codec K V P T) :
    Disk → Image K V P T → List (Call K V P T) → Image K V P T → Prop where
  | done : Commits C d A [] A
  | call (ha : c.op.Allowed A B (c.outcome C d)) (ht : Commits C (c.disk C d) B calls A') :
      Commits C d A (c :: calls) A'

variable {adm : FsOp → Decision → Disk → Prop} {C : Codec K V P T} {d d' : Disk} {m : Manifest}
variable {r : Option Manifest} {bytes : Bytes} {name path : FileName} {codec : Bincode α}
variable {magic : Bytes} {value : α} {n : Nat}

theorem ObjectAt.congr (h : ObjectAt C codec magic d name value n) (hd : d' name = d name) :
    ObjectAt C codec magic d' name value n := by
  obtain ⟨bytes, hf, he⟩ := h
  exact ⟨bytes, hd.trans hf, he⟩

theorem ObjectAt.crash (h : ObjectAt C codec magic d name value n)
    (torn : FileName → Option Bytes) : ObjectAt C codec magic (d.crash torn) name value n := by
  obtain ⟨bytes, hf, he⟩ := h
  exact ⟨bytes, Disk.crash_synced hf torn, he⟩

theorem Disk.Written.objectAt (hw : d.Written path bytes d')
    (he : encodeVersion C.hash codec magic value C.version = .ok bytes) :
    ObjectAt C codec magic d' path value bytes.length := ⟨bytes, hw.file, he, rfl⟩

theorem ObjectAt.decode (h : ObjectAt C codec magic d name value n) (hm : magic.length = 4) :
    ∃ bytes, d name = some ⟨bytes, true⟩ ∧
      decodeVersion C.hash codec magic C.version bytes = .ok value := by
  obtain ⟨bytes, hf, he, _⟩ := h
  exact ⟨bytes, hf, decodeVersion_encodeVersion hm C.hash_length he⟩

theorem ObjectAt.serialize (h : ObjectAt C codec magic d name value n) :
    ∃ body, codec.serialize value = some body := by
  obtain ⟨bytes, _, he, _⟩ := h
  unfold encodeVersion at he
  cases hs : codec.serialize value with
  | none => rw [hs] at he; cases he
  | some body => exact ⟨body, rfl⟩

theorem Held.manifestAt (h : Held C d m) : ManifestAt C d (some m) := by
  obtain ⟨n, ho⟩ := h.manifest
  obtain ⟨bytes, hf, hd⟩ := ho.decode rfl
  refine ⟨bytes, hf, ?_⟩
  simp only [decodeManifest, hd, h.valid, bind, Except.bind, pure, Except.pure]

theorem Published.manifestAt (h : Published C d r) : ManifestAt C d r := by
  cases r with
  | none => exact h
  | some m => exact Held.manifestAt h

theorem Held.le (h : Held C d m) : m.baseGeneration ≤ m.currentGeneration :=
  (validateManifest_eq_ok.1 h.valid).2.1

theorem Held.baseBytes_le (h : Held C d m) (hC : C.Words) : m.baseBytes ≤ u64Max := by
  obtain ⟨n, ho⟩ := h.manifest
  obtain ⟨body, hb⟩ := ho.serialize
  exact hC m body hb

theorem Held.congr (h : Held C d m) (hm : d' .manifest = d .manifest)
    (hd : ∀ name, m.Refers name → d' name = d name) : Held C d' m := by
  obtain ⟨n, ho⟩ := h.manifest
  obtain ⟨state, k, hb, hk⟩ := h.base
  refine ⟨⟨n, ho.congr hm⟩, h.valid, h.within, h.bounded, ⟨state, k, hb.congr (hd _ rfl), hk⟩, ?_⟩
  intro i hi hi'
  obtain ⟨origin, delta, k, hdl, hk⟩ := h.deltas i hi hi'
  exact ⟨origin, delta, k, hdl.congr (hd _ ⟨hi, hi'⟩), hk⟩

theorem Held.crash (h : Held C d m) (torn : FileName → Option Bytes) :
    Held C (d.crash torn) m := by
  obtain ⟨n, ho⟩ := h.manifest
  obtain ⟨state, k, hb, hk⟩ := h.base
  refine ⟨⟨n, ho.crash torn⟩, h.valid, h.within, h.bounded, ⟨state, k, hb.crash torn, hk⟩, ?_⟩
  intro i hi hi'
  obtain ⟨origin, delta, k, hdl, hk⟩ := h.deltas i hi hi'
  exact ⟨origin, delta, k, hdl.crash torn, hk⟩

theorem Published.crash (h : Published C d r) (torn : FileName → Option Bytes) :
    Published C (d.crash torn) r := by
  cases r with
  | none => exact Disk.crash_none h torn
  | some m => exact Held.crash h torn

theorem Manifest.Refers.ne_tmp (h : m.Refers name) (path : FileName) : name ≠ .tmp path := by
  rintro rfl
  exact h

theorem Published.untouched (h : Published C d r) (hu : d.Untouched path d') :
    Published C d' r := by
  cases r with
  | none => exact (hu .manifest nofun).trans h
  | some m => exact Held.congr h (hu .manifest nofun) fun name hn => hu name (hn.ne_tmp path)

/-- A new base disturbs the published manifest only at the last generation, where it takes the
place of the old one. -/
theorem Published.written_base (h : Published C d r) {state : PersistedState K V P T}
    (hw : d.Written (.segment .base (nextGeneration r)) bytes d')
    (he : encodeVersion C.hash C.base baseMagic ⟨nextGeneration r, state⟩ C.version = .ok bytes) :
    Published C d' r := by
  have hman : d' .manifest = d .manifest := hw.frame .manifest nofun nofun
  cases r with
  | none => exact hman.trans h
  | some m =>
    have h : Held C d m := h
    by_cases hg : m.baseGeneration = nextGeneration (some m)
    · have hlast : m.baseGeneration = u64Max := by
        have hle := h.le
        have hb := h.bounded
        simp only [nextGeneration, saturatingAdd] at hg
        omega
      have hnone (i : Nat) (hi : m.baseGeneration < i) : ¬i ≤ m.currentGeneration :=
        fun hi' => absurd (Nat.lt_of_lt_of_le hi hi') (Nat.not_lt.2 (hlast ▸ h.bounded))
      obtain ⟨n, ho⟩ := h.manifest
      rw [← hg] at hw he
      exact ⟨⟨n, ho.congr hman⟩, h.valid, h.within, h.bounded,
        ⟨state, _, hw.objectAt he, fun hne => absurd hlast hne⟩,
        fun i hi hi' => absurd hi' (hnone i hi)⟩
    · refine h.congr hman fun name hn => hw.frame name ?_ (hn.ne_tmp _)
      rintro rfl
      exact hg hn.symm

theorem Held.written_delta (h : Held C d m) {origin : Nat} {delta : PersistenceDelta K V P T}
    (hw : d.Written (.segment .delta (nextGeneration (some m))) bytes d')
    (he : encodeVersion C.hash C.delta deltaMagic ⟨origin, nextGeneration (some m), delta⟩
      C.version = .ok bytes) (hn : bytes.length < m.baseBytes) : Held C d' m := by
  obtain ⟨n, ho⟩ := h.manifest
  obtain ⟨state, k, hb, hk⟩ := h.base
  refine ⟨⟨n, ho.congr (hw.frame .manifest nofun nofun)⟩, h.valid, h.within, h.bounded,
    ⟨state, k, hb.congr (hw.frame (.segment .base _) nofun nofun), hk⟩, ?_⟩
  intro i hi hi'
  by_cases hg : i = nextGeneration (some m)
  · subst hg
    exact ⟨origin, delta, _, hw.objectAt he, hn⟩
  · obtain ⟨origin', delta', k, hdl, hk⟩ := h.deltas i hi hi'
    refine ⟨origin', delta', k, hdl.congr (hw.frame _ ?_ nofun), hk⟩
    intro heq
    injection heq with _ hgen
    exact hg hgen

theorem held_base {g : Nat} {state : PersistedState K V P T} {mbytes : Bytes}
    (ho : ObjectAt C C.base baseMagic d (.segment .base g) ⟨g, state⟩ n) (hg : g ≤ u64Max)
    (hm : d.Written .manifest mbytes d') (hv : validateManifest ⟨g, n, g, 0⟩ = .ok ())
    (he : encodeVersion C.hash C.manifest manifestMagic ⟨g, n, g, 0⟩ C.version = .ok mbytes) :
    Held C d' ⟨g, n, g, 0⟩ where
  manifest := ⟨_, hm.objectAt he⟩
  valid := hv
  within := ⟨by simp [Manifest.deltaCount, maxCommittedDeltas],
    fun hc => absurd (Nat.sub_self g) hc⟩
  bounded := hg
  base := ⟨state, n, ho.congr (hm.frame (.segment .base g) nofun nofun), fun _ => rfl⟩
  deltas i hi hi' := absurd hi (Nat.not_lt.2 hi')

/-- The check is made on the candidate: what it lets through is within the bounds, whatever the
manifest was before. -/
theorem within_of_not_shouldMaterialize (hs : shouldMaterialize m n = false) :
    Manifest.Within { m with
      currentGeneration := saturatingAdd m.currentGeneration 1
      deltaBytes := saturatingAdd m.deltaBytes n } := by
  obtain ⟨hcount, hbytes⟩ : ¬m.deltaCount ≥ maxCommittedDeltas ∧
      ¬saturatingAdd m.deltaBytes n ≥ m.baseBytes := by
    simpa only [shouldMaterialize, Bool.or_eq_false_iff, decide_eq_false_iff_not] using hs
  refine ⟨?_, fun _ => Nat.lt_of_not_le hbytes⟩
  unfold Manifest.deltaCount saturatingAdd at *
  simp only
  omega

theorem length_lt_of_not_shouldMaterialize (hs : shouldMaterialize m n = false)
    (hb : m.baseBytes ≤ u64Max) : n < m.baseBytes := by
  have hlt : ¬saturatingAdd m.deltaBytes n ≥ m.baseBytes := by
    rw [shouldMaterialize, Bool.or_eq_false_iff] at hs
    exact of_decide_eq_false hs.2
  rw [saturatingAdd] at hlt
  omega

theorem held_delta {origin : Nat} {delta : PersistenceDelta K V P T} {mbytes : Bytes} {k : Nat}
    (h : Held C d m)
    (ho : ObjectAt C C.delta deltaMagic d (.segment .delta (saturatingAdd m.currentGeneration 1))
      ⟨origin, saturatingAdd m.currentGeneration 1, delta⟩ n) (hn : n < m.baseBytes)
    (hm : d.Written .manifest mbytes d')
    (hw : Manifest.Within { m with
      currentGeneration := saturatingAdd m.currentGeneration 1, deltaBytes := k })
    (hv : validateManifest { m with
      currentGeneration := saturatingAdd m.currentGeneration 1, deltaBytes := k } = .ok ())
    (he : encodeVersion C.hash C.manifest manifestMagic { m with
      currentGeneration := saturatingAdd m.currentGeneration 1, deltaBytes := k } C.version =
        .ok mbytes) :
    Held C d' { m with
      currentGeneration := saturatingAdd m.currentGeneration 1, deltaBytes := k } where
  manifest := ⟨_, hm.objectAt he⟩
  valid := hv
  within := hw
  bounded := Nat.min_le_right _ _
  base := by
    obtain ⟨state, k, hb, hk⟩ := h.base
    exact ⟨state, k, hb.congr (hm.frame (.segment .base _) (by rintro ⟨⟩) (by rintro ⟨⟩)), hk⟩
  deltas i hi hi' := by
    by_cases hg : i = saturatingAdd m.currentGeneration 1
    · subst hg
      exact ⟨origin, delta, n,
        ho.congr (hm.frame (.segment .delta _) (by rintro ⟨⟩) (by rintro ⟨⟩)), hn⟩
    · have hold : i ≤ m.currentGeneration := by
        simp only [saturatingAdd] at hi' hg
        omega
      obtain ⟨origin', delta', k, hdl, hk⟩ := h.deltas i hi hold
      exact ⟨origin', delta', k,
        hdl.congr (hm.frame (.segment .delta i) (by rintro ⟨⟩) (by rintro ⟨⟩)), hk⟩

def Intact (C : Codec K V P T) (d : Disk) : Prop := ∃ r, Published C d r

theorem kept_published {g : Nat} (hb : m.baseGeneration = g) (hc : m.currentGeneration = g) :
    Kept g (fun d => Held C d m) := by
  intro d name h hm hbase
  refine h.congr (Function.update_of_ne (Ne.symm hm) _ _) ?_
  intro name' hn
  refine Function.update_of_ne ?_ _ _
  rintro rfl
  cases name' with
  | segment kind i =>
    cases kind with
    | base => exact hbase (congrArg (FileName.segment .base) (hn.trans hb))
    | delta => exact absurd hn.1 (Nat.not_lt.2 (hn.2.trans (hc.trans hb.symm).le))
  | manifest => exact hn
  | snapshot => exact hn
  | tmp path => exact hn

theorem ensures_writeSegment {kind : SegmentKind} {generation : Nat} {I : Disk → Prop}
    (hu : ∀ d', d.Untouched (.segment kind generation) d' → I d')
    (hw : ∀ d', d.Written (.segment kind generation) bytes d' → I d') :
    Fs.Ensures adm I (writeEncodedSegment kind generation bytes) (fun r d' => I d' ∧
      ∀ n, r = .ok n → n = bytes.length ∧ d.Written (.segment kind generation) bytes d') d := by
  refine Fs.ensures_bind (ensures_writeAtomic hu hw) ?_ ?_
  · intro _ d' hI hok
    exact Fs.ensures_pure hI ⟨hI, fun _ hn => ⟨(Except.ok.inj hn).symm, hok⟩⟩
  · rintro e d' (h | ⟨h, _⟩)
    · exact ⟨hu d' h, nofun⟩
    · exact ⟨hw d' h, nofun⟩

theorem ensures_publish {I : Disk → Prop} (hu : ∀ d', d.Untouched .manifest d' → I d')
    (hw : ∀ d' bytes, d.Written .manifest bytes d' → validateManifest m = .ok () →
      encodeVersion C.hash C.manifest manifestMagic m C.version = .ok bytes → I d') :
    Fs.Ensures adm I (publishManifestVersion C m) (fun r d' => I d' ∧ (r = .ok () →
      ∃ bytes, d.Written .manifest bytes d' ∧ validateManifest m = .ok () ∧
        encodeVersion C.hash C.manifest manifestMagic m C.version = .ok bytes)) d := by
  refine (ensures_publishManifestVersion hu hw).mono (fun _ h => h) ?_
  intro r d' hr
  cases r with
  | ok _ =>
    obtain ⟨bytes, h, hv, he⟩ := hr
    exact ⟨hw d' bytes h hv he, fun _ => ⟨bytes, h, hv, he⟩⟩
  | error _ =>
    rcases hr with h | ⟨⟨bytes, h, hv, he⟩, _⟩
    · exact ⟨hu d' h, nofun⟩
    · exact ⟨hw d' bytes h hv he, nofun⟩

/-- The published manifest is still there, or that of a new base has taken its place. -/
def Rebased (C : Codec K V P T) (r : Option Manifest) (d : Disk) : Prop :=
  Published C d r ∨ ∃ n, Held C d ⟨nextGeneration r, n, nextGeneration r, 0⟩

theorem Rebased.intact (h : Rebased C r d) : Intact C d := by
  rcases h with h | ⟨n, h⟩
  · exact ⟨r, h⟩
  · exact ⟨some _, h⟩

theorem Rebased.crash (h : Rebased C r d) (torn : FileName → Option Bytes) :
    Rebased C r (d.crash torn) :=
  h.imp (·.crash torn) fun ⟨n, h⟩ => ⟨n, h.crash torn⟩

theorem ensures_materialize_rebased (h : Published C d r) (s : PersistedState K V P T) :
    Fs.Ensures adm (Rebased C r) (materialize C s (nextGeneration r)) (fun _ d' => Rebased C r d')
      d := by
  have hg : nextGeneration r ≤ u64Max := by
    cases r with
    | none => exact Nat.succ_le_of_lt (by unfold u64Max; omega)
    | some m => exact Nat.min_le_right _ _
  refine Fs.ensures_then (.inl h) rfl (.inl h) (fun _ _ => ⟨.inl h, .inl h⟩) ?_
  rw [writeSegmentVersion]
  cases he : encodeVersion C.hash C.base baseMagic ⟨nextGeneration r, s⟩ C.version with
  | error e => exact Fs.ensures_throw (.inl h) (.inl h)
  | ok bytes =>
    simp only [Fs.ofExcept_ok_bind]
    refine Fs.ensures_bind (ensures_writeSegment (fun d' hu => .inl (h.untouched hu))
      fun d' hw => .inl (h.written_base hw he)) ?_ fun _ _ h => h.1
    rintro n d₁ _ ⟨_, hn⟩
    obtain ⟨rfl, hw⟩ := hn n rfl
    have h₁ := h.written_base hw he
    have hnew : ∀ d' mbytes, d₁.Written .manifest mbytes d' → validateManifest _ = .ok () → _ →
        Held C d' ⟨nextGeneration r, bytes.length, nextGeneration r, 0⟩ :=
      fun d' mbytes hm hv hme => held_base (hw.objectAt he) hg hm hv hme
    refine Fs.ensures_bind (ensures_publish (fun d' hu => .inl (h₁.untouched hu))
      fun d' mbytes hm hv hme => .inr ⟨_, hnew d' mbytes hm hv hme⟩) ?_ fun _ _ h => h.1
    rintro _ d₂ _ ⟨_, hok⟩
    obtain ⟨mbytes, hm, hv, hme⟩ := hok rfl
    exact Fs.ensures_lift ((always_cleanup (kept_published rfl rfl) (fun _ h => .inr ⟨_, h⟩)
      (hnew d₂ mbytes hm hv hme)).mono (fun _ h => h) fun _ _ h => .inr ⟨_, h⟩)

theorem ensures_saveFull_rebased (h : Published C d r) (s : PersistedState K V P T) :
    Fs.Ensures adm (Rebased C r) (saveFullFor C s) (fun _ d' => Rebased C r d') d := by
  refine Fs.ensures_bind (ensures_readManifestVersion h.manifestAt (.inl h)) ?_
    fun _ _ hd => hd.1 ▸ .inl h
  rintro r' d' _ ⟨rfl, rfl⟩
  cases r' with
  | none =>
    refine Fs.ensures_bind (ensures_refuseIncompatible (.inl h)) ?_ fun _ _ hd => hd ▸ .inl h
    rintro _ d' _ rfl
    exact ensures_materialize_rebased h s
  | some m => exact ensures_materialize_rebased h s

theorem ensures_appendDelta_intact (hC : C.Words) (h : Held C d m)
    (delta : PersistenceDelta K V P T) :
    Fs.Ensures adm (Intact C) (appendDelta C m delta) (fun _ d' => Intact C d') d := by
  have hI : Intact C d := ⟨some m, h⟩
  rw [appendDelta]
  cases he : encodeVersion C.hash C.delta deltaMagic
      ⟨m.currentGeneration, saturatingAdd m.currentGeneration 1, delta⟩ C.version with
  | error e => exact Fs.ensures_throw hI hI
  | ok bytes =>
    simp only [Fs.ofExcept_ok_bind]
    split
    · exact Fs.ensures_pure hI hI
    · next hs =>
      have hs := Bool.eq_false_iff.2 hs
      have hlt := length_lt_of_not_shouldMaterialize hs (h.baseBytes_le hC)
      refine Fs.ensures_bind (ensures_writeSegment
        (fun d' hu => ⟨some m, Published.untouched (r := some m) h hu⟩)
        fun d' hw => ⟨some m, h.written_delta hw he hlt⟩) ?_ fun _ _ h => h.1
      rintro n d₁ _ ⟨_, hn⟩
      obtain ⟨rfl, hw⟩ := hn n rfl
      have h₁ : Held C d₁ m := h.written_delta hw he hlt
      refine Fs.ensures_bind (ensures_publish
        (fun d' hu => ⟨some m, Published.untouched (r := some m) h₁ hu⟩)
        fun d' mbytes hm hv hme => ⟨some _, held_delta h₁ (hw.objectAt he) hlt hm
          (within_of_not_shouldMaterialize hs) hv hme⟩) ?_ fun _ _ h => h.1
      rintro _ d₂ h₂ _
      exact Fs.ensures_pure h₂ h₂

theorem ensures_trySaveDelta_intact (hC : C.Words) (h : Intact C d)
    (delta : Option (PersistenceDelta K V P T)) :
    Fs.Ensures adm (Intact C) (trySaveDeltaFor C delta) (fun _ d' => Intact C d') d := by
  obtain ⟨r, hr⟩ := id h
  refine Fs.ensures_bind (ensures_readManifestVersion hr.manifestAt h) ?_ fun _ _ hd => hd.1 ▸ h
  rintro r' d' _ ⟨rfl, rfl⟩
  cases r' with
  | none =>
    refine Fs.ensures_bind (ensures_refuseIncompatible h) ?_ fun _ _ hd => hd ▸ h
    rintro _ d' _ rfl
    exact Fs.ensures_pure h h
  | some m =>
    cases delta with
    | none => exact Fs.ensures_pure h h
    | some delta => exact ensures_appendDelta_intact hC hr delta

theorem SaveOp.ensures_intact (op : SaveOp K V P T) (hC : C.Words) (h : Intact C d) :
    Fs.Ensures adm (Intact C) (op.prog C) (fun _ d' => Intact C d') d := by
  cases op with
  | full state =>
    obtain ⟨r, hr⟩ := h
    have hsave : Fs.Ensures adm (Intact C) (saveFullFor C state) (fun _ d' => Intact C d') d :=
      (ensures_saveFull_rebased hr state).mono (fun _ h => h.intact) fun _ _ h => h.intact
    refine Fs.ensures_bind hsave ?_ fun _ _ h => h
    intro _ d' hI _
    exact Fs.ensures_pure hI hI
  | delta change => exact ensures_trySaveDelta_intact hC h change

theorem Intact.call (hC : C.Words) (h : Intact C d) (c : Call K V P T) :
    Intact C (c.disk C d) := by
  have hrun := Prog.Always.run (c.op.ensures_intact hC h) c.script
  have hcut : Intact C (c.run C d).2 := hrun.inv
  unfold Call.disk
  split
  · exact hcut
  · obtain ⟨r, hr⟩ := hcut
    exact ⟨r, hr.crash c.torn⟩

/-- Any number of calls, with any faults and crashes. -/
theorem Intact.runAll (hC : C.Words) (h : Intact C d) (calls : List (Call K V P T)) :
    Intact C (Call.runAll C d calls) :=
  List.foldlRecOn (motive := Intact C) calls _ h fun _ h c _ => h.call hC c

theorem StoreAt.commits {A : Image K V P T} {g : Nat} (h : StoreAt C d A g)
    (calls : List (Call K V P T)) (hg : g + calls.length ≤ u64Max) :
    ∃ B, Commits C d A calls B ∧ ∃ g', StoreAt C (Call.runAll C d calls) B g' := by
  induction calls generalizing d A g with
  | nil => exact ⟨A, .done, g, h⟩
  | cons c calls ih =>
    rw [List.length_cons] at hg
    obtain ⟨B, g', hg', hB, ha⟩ := c.step h (by omega)
    obtain ⟨B', hB', hend⟩ := ih hB (by omega)
    exact ⟨B', .call ha hB', hend⟩

/-- A call on a store without a manifest publishes nothing or the first base, whatever the
single-file snapshot is. -/
theorem SaveOp.ensures_first (op : SaveOp K V P T) (C : Codec K V P T) (h : d .manifest = none) :
    Fs.Ensures adm (Rebased C none) (op.prog C) (fun _ d' => Rebased C none d') d := by
  have hp : Published C d none := h
  cases op with
  | full state =>
    refine Fs.ensures_bind (ensures_saveFull_rebased hp state) ?_ fun _ _ h => h
    intro _ d' hI _
    exact Fs.ensures_pure hI hI
  | delta change =>
    refine Fs.ensures_bind (ensures_readManifestVersion hp.manifestAt (.inl hp)) ?_
      fun _ _ hd => hd.1 ▸ .inl hp
    rintro r' d' _ ⟨rfl, rfl⟩
    refine Fs.ensures_bind (ensures_refuseIncompatible (.inl hp)) ?_ fun _ _ hd => hd ▸ .inl hp
    rintro _ d' _ rfl
    exact Fs.ensures_pure (.inl hp) (.inl hp)

theorem Held.storeAt {g : Nat} (h : Held C d ⟨g, n, g, 0⟩) (hg : g ≠ u64Max) :
    ∃ base, StoreAt C d (.chain base []) g := by
  obtain ⟨_, bytes, hf, he, _⟩ := h.manifest
  obtain ⟨base, k, ⟨bbytes, hbf, hbe, hbl⟩, hk⟩ := h.base
  exact ⟨base, _, ⟨⟨bytes, hf, he⟩, h.valid, ⟨bbytes, hbf, hbe, (hk hg ▸ hbl).symm⟩, rfl, rfl,
    h.bounded⟩, rfl⟩

theorem Call.first (c : Call K V P T) (h : d .manifest = none) :
    c.disk C d .manifest = none ∨ ∃ base, StoreAt C (c.disk C d) (.chain base []) 1 := by
  have hrun := Prog.Always.run (c.op.ensures_first C h) c.script
  have hcut : Rebased C none (c.run C d).2 := hrun.inv
  have hdisk : Rebased C none (c.disk C d) := by
    unfold Call.disk
    split
    · exact hcut
    · exact hcut.crash c.torn
  refine hdisk.imp_right ?_
  rintro ⟨n, hn⟩
  exact hn.storeAt (by unfold u64Max; decide)

/-- From a store without a manifest, what is published short of the last generation is a base with
its committed deltas. -/
theorem storeAt_runAll (h : d .manifest = none) (calls : List (Call K V P T))
    (hlen : calls.length ≤ u64Max) :
    Call.runAll C d calls .manifest = none ∨
      ∃ base deltas g, StoreAt C (Call.runAll C d calls) (.chain base deltas) g := by
  induction calls generalizing d with
  | nil => exact .inl h
  | cons c calls ih =>
    rw [List.length_cons] at hlen
    rcases c.first h with hnone | ⟨base, hbase⟩
    · exact ih hnone (by omega)
    · obtain ⟨B, _, g, hB⟩ := hbase.commits calls (by omega)
      cases B with
      | bare legacy => exact .inl hB.1
      | chain base' deltas => exact .inr ⟨base', deltas, g, hB⟩

theorem u64Codec_words (version : UInt32) : (u64Codec version).Words := by
  intro m body h
  by_contra hn
  have hnone : (Wire.uint 8).write m.baseBytes = none := if_neg (by unfold u64Max at hn; omega)
  change (do
    let a ← (Wire.uint 8).write m.baseGeneration
    let b ← (do
      let a ← (Wire.uint 8).write m.baseBytes
      let b ← (do
        let a ← (Wire.uint 8).write m.currentGeneration
        let b ← (Wire.uint 8).write m.deltaBytes
        return a ++ b)
      return a ++ b)
    return a ++ b : Option Bytes) = some body at h
  rw [hnone] at h
  cases hg : (Wire.uint 8).write m.baseGeneration with
  | none => rw [hg] at h; cases h
  | some a => rw [hg] at h; cases h

end Reconcile
