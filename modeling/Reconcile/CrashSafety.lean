import Reconcile.Bincode
import Reconcile.SaveSpec

namespace Reconcile
open Lib
set_option autoImplicit true

variable {K V P T : Type}

inductive SaveOp (K V P T : Type) where
  | full (state : PersistedState K V P T)
  | delta (change : Option (PersistenceDelta K V P T))

def SaveOp.prog (C : Codec K V P T) : SaveOp K V P T → Fs Bool
  | .full state => do
    saveFullFor C state
    return true
  | .delta change => trySaveDeltaFor C change

def SaveOp.after : SaveOp K V P T → Image K V P T → Image K V P T
  | .full state, _ => .chain state []
  | .delta change, A => A.extend change

/-- One call with what the environment does to it: a decision for each file-system call, and
what a crash leaves of unsynced files. The power goes where the script ends, or after the call
has returned. -/
structure Call (K V P T : Type) where
  op : SaveOp K V P T
  script : List Decision
  torn : FileName → Option Bytes := fun _ => none
  crash : Bool := false

namespace Call

variable (C : Codec K V P T) (c : Call K V P T) (d : Disk)

def run : Prog FsOp FsOp.Ans (Except IoError Bool) × Disk :=
  Prog.run fileSystem c.script ((c.op.prog C).run, d)

def outcome : Option (Except IoError Bool) :=
  match (c.run C d).1 with
  | .pure r => some r
  | .call _ _ => none

def disk : Disk :=
  if (c.outcome C d).isSome && !c.crash then (c.run C d).2 else (c.run C d).2.crash c.torn

end Call

/-- A call that returned told the truth; any other has either happened or not. -/
def SaveOp.Allowed (op : SaveOp K V P T) (A B : Image K V P T) :
    Option (Except IoError Bool) → Prop
  | some (.ok true) => B = op.after A
  | some (.ok false) => B = A
  | _ => B = A ∨ B = op.after A

section

variable [LinearOrder K] [DecidableEq P]

/-- Before and after each call, loading gives the image that the calls so far have made. -/
inductive CrashAtomic (C : Codec K V P T) : Disk → Image K V P T → List (Call K V P T) → Prop where
  | done (h : (load C).quiet d = (.ok A.loaded, d)) : CrashAtomic C d A []
  | call (h : (load C).quiet d = (.ok A.loaded, d)) (ha : c.op.Allowed A B (c.outcome C d))
      (ht : CrashAtomic C (c.disk C d) B cs) : CrashAtomic C d A (c :: cs)

end

def Call.runAll (C : Codec K V P T) (d : Disk) (calls : List (Call K V P T)) : Disk :=
  calls.foldl (fun d c => c.disk C d) d

theorem CrashAtomic.load_runAll [LinearOrder K] [DecidableEq P] {C : Codec K V P T} {d : Disk}
    {A : Image K V P T} {calls : List (Call K V P T)} (h : CrashAtomic C d A calls) :
    ∃ s, ((load C).quiet (Call.runAll C d calls)).1 = .ok s := by
  induction h with
  | done h => exact ⟨_, congrArg Prod.fst h⟩
  | call _ _ _ ih => exact ih

theorem SaveOp.ensures (op : SaveOp K V P T) {C : Codec K V P T} {d : Disk} {A : Image K V P T}
    {g : Nat} (h : StoreAt C d A g) (hg : g < u64Max) :
    Fs.Ensures (fun _ _ _ => True)
      (fun d' => StoreAt C d' A g ∨ StoreAt C d' (op.after A) (g + 1)) (op.prog C)
      (fun r d' => ∃ B g', g' ≤ g + 1 ∧ StoreAt C d' B g' ∧ op.Allowed A B (some r)) d := by
  cases op with
  | full state =>
    refine Fs.ensures_bind (ensures_saveFullFor h hg) ?_ ?_
    · intro _ d' hI hok
      exact Fs.ensures_pure hI ⟨_, g + 1, le_refl _, hok, rfl⟩
    · rintro e d' (h' | ⟨h', _⟩)
      · exact ⟨A, g, Nat.le_succ g, h', .inl rfl⟩
      · exact ⟨_, g + 1, le_refl _, h', .inr rfl⟩
  | delta change =>
    refine (ensures_trySaveDeltaFor h hg).mono (fun _ h => h) ?_
    intro r d' hr
    cases r with
    | error e =>
      rcases hr with h' | h'
      · exact ⟨A, g, Nat.le_succ g, h', .inl rfl⟩
      · exact ⟨_, g + 1, le_refl _, h', .inr rfl⟩
    | ok b =>
      cases b with
      | false => exact ⟨A, g, Nat.le_succ g, hr, rfl⟩
      | true =>
        obtain ⟨⟨g', hg', h'⟩, _⟩ := hr
        exact ⟨_, g', hg', h', rfl⟩

theorem Call.step (c : Call K V P T) {C : Codec K V P T} {d : Disk} {A : Image K V P T} {g : Nat}
    (h : StoreAt C d A g) (hg : g < u64Max) :
    ∃ B g', g' ≤ g + 1 ∧ StoreAt C (c.disk C d) B g' ∧ c.op.Allowed A B (c.outcome C d) := by
  have hrun := (c.op.ensures h hg).run c.script
  change Prog.Always fileSystem (.alone Disk) _ _ (c.run C d).1 _ (c.run C d).2 at hrun
  have hcut : ∀ B g', StoreAt C (c.run C d).2 B g' → StoreAt C (c.disk C d) B g' := by
    intro B g' hB
    unfold disk
    split
    · exact hB
    · exact hB.crash _
  unfold outcome
  cases hp : (c.run C d).1 with
  | pure r =>
    rw [hp] at hrun
    obtain ⟨B, g', hg', hB, ha⟩ := hrun.ret
    exact ⟨B, g', hg', hcut B g' hB, ha⟩
  | call o next =>
    rcases hrun.inv with hB | hB
    · exact ⟨A, g, Nat.le_succ g, hcut A g hB, .inl rfl⟩
    · exact ⟨_, g + 1, le_refl _, hcut _ _ hB, .inr rfl⟩

theorem StoreAt.crashAtomic [LinearOrder K] [DecidableEq P] {C : Codec K V P T} {d : Disk}
    {A : Image K V P T} {g : Nat} (h : StoreAt C d A g) (calls : List (Call K V P T))
    (hg : g + calls.length ≤ u64Max) : CrashAtomic C d A calls := by
  induction calls generalizing d A g with
  | nil => exact .done h.load
  | cons c calls ih =>
    rw [List.length_cons] at hg
    obtain ⟨B, g', hg', hB, ha⟩ := c.step h (by omega)
    exact .call h.load ha (ih hB (by omega))

/-- Starting without a manifest, fewer than `2 ^ 64` calls with any faults and crashes keep the
store loadable, as it was before or after the call that was cut. -/
theorem crash_atomic [LinearOrder K] [DecidableEq P] (C : Codec K V P T) (d : Disk)
    (legacy : Option (PersistedState K V P T)) (hm : d .manifest = none)
    (hl : LegacyAt C d legacy) (calls : List (Call K V P T)) (hlen : calls.length < 2 ^ 64) :
    CrashAtomic C d (.bare legacy) calls := by
  have h : StoreAt C d (.bare legacy) 0 := ⟨hm, hl, rfl⟩
  refine h.crashAtomic calls ?_
  unfold u64Max
  omega

/-- A full save that takes effect, and a delta save cut before its manifest is renamed. -/
theorem crash_atomic_torn_delta : CrashAtomic (u64Codec formatVersion) (fun _ => none) (.bare none)
    [⟨.full ⟨[(1, .present 5 7)], ∅, ∅⟩, List.replicate 20 (.succeed []), fun _ => none, false⟩,
      ⟨.delta (some ⟨∅, ∅, ∅, ∅⟩), List.replicate 9 (.succeed []), fun _ => some [0], false⟩] :=
  crash_atomic (u64Codec formatVersion) (fun _ => none) none rfl rfl _ (by decide)

namespace Exhaustion

abbrev C : Codec Nat Nat Nat Nat := u64Codec formatVersion

def small : PersistedState Nat Nat Nat Nat := ⟨[], ∅, ∅⟩

def large : PersistedState Nat Nat Nat Nat := ⟨[(1, .present 5 7)], ∅, ∅⟩

theorem write_small : ∃ body, Layout.persistedState.write small = some body ∧ body.length = 24 :=
  ⟨_, rfl, rfl⟩

theorem write_large : ∃ body, Layout.persistedState.write large = some body ∧ body.length = 52 :=
  ⟨_, rfl, rfl⟩

theorem encode_base {g : Nat} {s : PersistedState Nat Nat Nat Nat} {body : Bytes}
    (hg : g ≤ u64Max) (hs : Layout.persistedState.write s = some body) :
    ∃ bytes, encodeVersion C.hash C.base baseMagic ⟨g, s⟩ C.version = .ok bytes ∧
      bytes.length = 48 + body.length := by
  have hw : C.base.serialize ⟨g, s⟩ = some (Wire.leBytes 8 g ++ body) := by
    have hu : (Wire.uint 8).write g = some (Wire.leBytes 8 g) :=
      if_pos (Nat.lt_of_le_of_lt hg (by decide))
    change (do
      let a ← (Wire.uint 8).write g
      let b ← Layout.persistedState.write s
      return a ++ b) = _
    rw [hu, hs]
    rfl
  refine ⟨_, by rw [encodeVersion, hw], ?_⟩
  simp only [List.length_append, Wire.leBytes_length, toLeBytes, List.length_cons, List.length_nil,
    baseMagic, C.hash_length, objectChecksumLen]
  omega

theorem encode_manifest {m : Manifest} (hb : m.baseGeneration ≤ u64Max) (hn : m.baseBytes ≤ u64Max)
    (hc : m.currentGeneration ≤ u64Max) (hd : m.deltaBytes ≤ u64Max) :
    ∃ bytes, encodeVersion C.hash C.manifest manifestMagic m C.version = .ok bytes := by
  have hu : ∀ n, n ≤ u64Max → (Wire.uint 8).write n = some (Wire.leBytes 8 n) :=
    fun n hn => if_pos (Nat.lt_of_le_of_lt hn (by decide))
  have hw : (C.manifest.serialize m).isSome = true := by
    change (do
      let a ← (Wire.uint 8).write m.baseGeneration
      let b ← (do
        let a ← (Wire.uint 8).write m.baseBytes
        let b ← (do
          let a ← (Wire.uint 8).write m.currentGeneration
          let b ← (Wire.uint 8).write m.deltaBytes
          return a ++ b)
        return a ++ b)
      return a ++ b : Option Bytes).isSome = true
    rw [hu _ hb, hu _ hn, hu _ hc, hu _ hd]
    rfl
  obtain ⟨body, hbody⟩ := Option.isSome_iff_exists.1 hw
  exact ⟨_, by rw [encodeVersion, hbody]⟩

theorem exists_manifest {d : Disk} {A : Image Nat Nat Nat Nat} {g : Nat} (h : StoreAt C d A g) :
    ∃ m, ManifestAt C d m ∧ (∀ m', m = some m' → m'.currentGeneration = g) ∧
      (m = none → g = 0) := by
  cases A with
  | bare legacy => exact ⟨none, h.1, nofun, fun _ => h.2.2⟩
  | chain base deltas =>
    obtain ⟨m, hc, hg⟩ := h
    refine ⟨some m, hc.manifestAt, ?_, nofun⟩
    rintro _ ⟨⟩
    exact hg

theorem quiet_writeBase {d : Disk} {g : Nat} {s : PersistedState Nat Nat Nat Nat} {bytes : Bytes}
    (he : encodeVersion C.hash C.base baseMagic ⟨g, s⟩ C.version = .ok bytes) :
    ∃ d', (writeSegmentVersion C C.base baseMagic .base g ⟨g, s⟩).quiet d =
      (.ok bytes.length, d') ∧ d.Written (.segment .base g) bytes d' := by
  obtain ⟨d', hq, hw⟩ := quiet_writeAtomic (.segment .base g) bytes d
  refine ⟨d', ?_, hw⟩
  simp only [writeSegmentVersion, writeEncodedSegment, he, Fs.ofExcept_ok_bind, Fs.quiet_bind, hq,
    Fs.quiet_pure]

theorem quiet_publish {d : Disk} {m : Manifest} {bytes : Bytes} (hv : validateManifest m = .ok ())
    (he : encodeVersion C.hash C.manifest manifestMagic m C.version = .ok bytes) :
    ∃ d', (publishManifestVersion C m).quiet d = (.ok (), d') ∧ d.Written .manifest bytes d' := by
  obtain ⟨d', hp, hw⟩ := quiet_writeAtomic .manifest bytes d
  refine ⟨d', ?_, hw⟩
  rw [publishManifestVersion, hv, he, Fs.ofExcept_ok_bind, Fs.ofExcept_ok_bind, hp]

variable {s : PersistedState Nat Nat Nat Nat} {body : Bytes}

theorem quiet_materialize {d : Disk} {g : Nat} (hs : Layout.persistedState.write s = some body)
    (hb : 48 + body.length ≤ u64Max) (h0 : g ≠ 0) (hg : g ≤ u64Max) :
    ∃ d', (materialize C s g).quiet d = (.ok (), d') := by
  obtain ⟨bytes, he, hl⟩ := encode_base hg hs
  obtain ⟨d₁, hq, _⟩ := quiet_writeBase (d := d) he
  obtain ⟨mbytes, hm⟩ := encode_manifest (m := ⟨g, bytes.length, g, 0⟩) hg (hl ▸ hb) hg
    (Nat.zero_le _)
  have hv : validateManifest ⟨g, bytes.length, g, 0⟩ = .ok () :=
    validateManifest_eq_ok.2 ⟨h0, le_refl _, by simp only [hl]; omega, fun _ => rfl,
      fun h => absurd h (Nat.lt_irrefl _)⟩
  obtain ⟨d₂, hpub, _⟩ := quiet_publish (d := d₁) hv hm
  have hc : (Fs.effect .createDirAll).quiet d = (.ok (), d) := rfl
  simp only [materialize, Fs.quiet_bind, hc, hq, hpub, Fs.quiet_lift]
  exact ⟨_, rfl⟩

theorem exists_call {op : SaveOp Nat Nat Nat Nat} {d d' : Disk} {r : Except IoError Bool}
    (h : (op.prog C).quiet d = (r, d')) : ∃ c : Call Nat Nat Nat Nat, c.disk C d = d' := by
  obtain ⟨script, hs⟩ := Prog.exists_script fileSystem (.succeed []) (op.prog C).run .pure d
  refine ⟨⟨op, script, fun _ => none, false⟩, ?_⟩
  have hrun : Call.run C ⟨op, script, fun _ => none, false⟩ d = (.pure r, d') := by
    have hend := hs []
    rw [List.append_nil, Prog.bind_pure] at hend
    refine hend.trans ?_
    unfold Fs.quiet at h
    rw [h]
    rfl
  simp only [Call.disk, Call.outcome, hrun]
  rfl

theorem exists_save {d : Disk} {A : Image Nat Nat Nat Nat} {g : Nat}
    (hs : Layout.persistedState.write s = some body) (hb : 48 + body.length ≤ u64Max)
    (h : StoreAt C d A g) (hg : g < u64Max) :
    ∃ c : Call Nat Nat Nat Nat, StoreAt C (c.disk C d) (.chain s []) (g + 1) := by
  obtain ⟨d', hq⟩ : ∃ d', (saveFullFor C s).quiet d = (.ok (), d') := by
    obtain ⟨m, hat, hm, h0⟩ := exists_manifest h
    obtain ⟨d', hd'⟩ := quiet_materialize (d := d) hs hb (Nat.succ_ne_zero g) hg
    refine ⟨d', ?_⟩
    rw [saveFullFor, Fs.quiet_bind, quiet_readManifestVersion hat]
    cases m with
    | none =>
      have hf : (refuseIncompatible C .incompatibleOverwrite).quiet d = (.ok (), d) := rfl
      simp only [Fs.quiet_bind, hf]
      rw [h0 rfl] at hd'
      exact hd'
    | some m =>
      simp only [hm m rfl, saturatingAdd_one hg]
      exact hd'
  have hop : ((SaveOp.full s).prog C).quiet d = (.ok true, d') := by
    simp only [SaveOp.prog, Fs.quiet_bind, hq, Fs.quiet_pure]
  obtain ⟨c, hc⟩ := exists_call hop
  refine ⟨c, ?_⟩
  rw [hc]
  exact (ensures_saveFullFor h hg).of_quiet hq

theorem exists_save_small {d : Disk} {A : Image Nat Nat Nat Nat} {g : Nat} (h : StoreAt C d A g)
    (hg : g < u64Max) :
    ∃ c : Call Nat Nat Nat Nat, StoreAt C (c.disk C d) (.chain small []) (g + 1) := by
  obtain ⟨body, hs, hb⟩ := write_small
  exact exists_save hs (by rw [hb]; decide) h hg

theorem exists_saves (n : Nat) (hn : n + 1 ≤ u64Max) : ∃ calls : List (Call Nat Nat Nat Nat),
    calls.length = n + 1 ∧
      StoreAt C (Call.runAll C (fun _ => none) calls) (.chain small []) (n + 1) := by
  induction n with
  | zero =>
    have h₀ : StoreAt C (fun _ => none) (.bare none) 0 := ⟨rfl, rfl, rfl⟩
    obtain ⟨c, hc⟩ := exists_save_small h₀ hn
    exact ⟨[c], rfl, hc⟩
  | succ n ih =>
    obtain ⟨calls, hl, h⟩ := ih (Nat.le_of_succ_le hn)
    obtain ⟨c, hc⟩ := exists_save_small h hn
    refine ⟨calls ++ [c], by rw [List.length_append, hl]; rfl, ?_⟩
    rw [Call.runAll, List.foldl_append]
    exact hc

def Reaches (x : Fs α) (d d' : Disk) : Prop :=
  ∃ script p, Prog.run fileSystem script (x.run, d) = (p, d')

theorem Reaches.bind {x : Fs α} {f : α → Fs β} {d d' d'' : Disk} {a : α}
    (h : x.quiet d = (.ok a, d')) (hf : Reaches (f a) d' d'') : Reaches (x >>= f) d d'' := by
  obtain ⟨script, hs⟩ := Fs.exists_script h f
  obtain ⟨rest, p, hp⟩ := hf
  exact ⟨script ++ rest, p, (hs rest).trans hp⟩

theorem Reaches.here (x : Fs α) (d : Disk) : Reaches x d d := ⟨[], x.run, rfl⟩

/-- At the last generation a full save rewrites the base that the manifest refers to. -/
theorem exists_overwrite {d : Disk} (h : StoreAt C d (.chain small []) u64Max) :
    ∃ c : Call Nat Nat Nat Nat, ∃ e, ((load C).quiet (c.disk C d)).1 = .error e := by
  obtain ⟨m, hc, hg⟩ := h
  have hbase : m.baseGeneration = u64Max := hc.current.symm.trans hg
  have hsat : saturatingAdd m.currentGeneration 1 = u64Max := by
    rw [hg, saturatingAdd]
    exact Nat.min_eq_right (Nat.le_succ _)
  obtain ⟨body, hs, hb⟩ := write_large
  obtain ⟨bytes, he, hl⟩ := encode_base (le_refl u64Max) hs
  obtain ⟨d₁, hq, hw⟩ := quiet_writeBase (d := d) he
  have hreach : Reaches ((SaveOp.full large).prog C) d d₁ := by
    rw [SaveOp.prog, saveFullFor, bind_assoc]
    apply Reaches.bind (quiet_readManifestVersion hc.manifestAt)
    simp only [hsat]
    rw [materialize, bind_assoc]
    apply Reaches.bind (show (Fs.effect .createDirAll).quiet d = (.ok (), d) from rfl)
    rw [bind_assoc]
    exact Reaches.bind hq (Reaches.here _ _)
  obtain ⟨script, p, hrun⟩ := hreach
  refine ⟨⟨.full large, script, fun _ => none, true⟩, ?_⟩
  have hdisk : Call.disk C ⟨.full large, script, fun _ => none, true⟩ d =
      d₁.crash fun _ => none := by
    simp only [Call.disk, Call.run, hrun, Bool.not_true, Bool.and_false, Bool.false_eq_true,
      ↓reduceIte]
  rw [hdisk]
  obtain ⟨mb, hmf, hmd⟩ := hc.manifestAt
  have hman : ManifestAt C (d₁.crash fun _ => none) (some m) :=
    ⟨mb, Disk.crash_synced ((hw.frame .manifest (by simp) (by simp)).trans hmf) _, hmd⟩
  have hseg := Disk.crash_synced hw.file fun _ => none
  obtain ⟨body', hs', hb'⟩ := write_small
  obtain ⟨bytes', he', hl'⟩ := encode_base (le_refl u64Max) hs'
  obtain ⟨bb, _, hbe, hbl⟩ := hc.segment
  rw [hbase, he'] at hbe
  cases hbe
  have hne : ¬bytes.length = m.baseBytes := by
    rw [hbl, hl, hl', hb, hb']
    decide
  refine ⟨.segmentLength (segmentFileName .base u64Max) bytes.length m.baseBytes, ?_⟩
  simp only [load, loadFor, recoverManifest, readSegmentBytes, Fs.quiet_bind,
    quiet_readManifestVersion hman, Fs.quiet_attempt, Fs.quiet_read, hbase, hseg, ne_eq, hne,
    not_false_eq_true, ↓reduceIte, Fs.quiet_throw]

end Exhaustion

/-- With `2 ^ 64` calls the generation counter saturates and atomicity is lost. -/
theorem crash_atomic_exhausted : ∃ calls : List (Call Nat Nat Nat Nat), calls.length = 2 ^ 64 ∧
    ¬CrashAtomic (u64Codec formatVersion) (fun _ => none) (.bare none) calls := by
  obtain ⟨n, hn⟩ : ∃ n, n + 1 = u64Max := Nat.exists_add_one_eq.2 (by unfold u64Max; omega)
  obtain ⟨calls, hl, h⟩ := Exhaustion.exists_saves n (Nat.le_of_eq hn)
  rw [hn] at h hl
  obtain ⟨c, e, he⟩ := Exhaustion.exists_overwrite h
  refine ⟨calls ++ [c], ?_, ?_⟩
  · have hlen : (calls ++ [c]).length = u64Max + 1 := by rw [List.length_append, hl]; rfl
    rw [hlen]
    unfold u64Max
    omega
  intro hatomic
  obtain ⟨s, hs⟩ := hatomic.load_runAll
  rw [Call.runAll, List.foldl_append] at hs
  exact nomatch he.symm.trans hs

end Reconcile
