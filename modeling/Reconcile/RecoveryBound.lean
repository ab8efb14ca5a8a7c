import Mathlib.Algebra.Order.Monoid.Prod
import Reconcile.Lib.Budget
import Reconcile.Published

namespace Reconcile
open Lib
set_option autoImplicit true

variable {K V P T : Type}

section

variable {C : Codec K V P T} {d : Disk} {m : Manifest}

def Disk.size (d : Disk) (name : FileName) : Nat := (d name).elim 0 (·.bytes.length)

def Disk.deltaSizes (d : Disk) (gen count : Nat) : List Nat :=
  (List.range' (gen + 1) count).map fun i => d.size (.segment .delta i)

theorem DeltasAt.total_eq {gen observed total : Nat} {deltas : List (PersistenceDelta K V P T)}
    (h : DeltasAt C d gen deltas observed total) (ho : observed ≤ u64Max) :
    total = min (observed + (d.deltaSizes gen deltas.length).sum) u64Max := by
  induction deltas generalizing gen observed with
  | nil =>
    cases h
    exact (min_eq_left ho).symm
  | cons delta deltas ih =>
    obtain ⟨bytes, hf, _, hr⟩ := h
    have hsize : d.size (.segment .delta (gen + 1)) = bytes.length := by
      rw [Disk.size, hf]
      rfl
    have hrest := ih hr (min_le_right _ _)
    rw [saturatingAdd] at hrest
    rw [Disk.deltaSizes, List.length_cons, List.range'_succ, List.map_cons, List.sum_cons, hsize]
    unfold Disk.deltaSizes at hrest
    omega

/-- A manifest within the bounds never saturated: it records the sizes of its segments. -/
theorem Committed.sizes {base : PersistedState K V P T}
    {deltas : List (PersistenceDelta K V P T)} (h : Committed C d m base deltas) (hm : m.Within)
    (hword : m.baseBytes ≤ u64Max) : m.baseBytes = d.size (.segment .base m.baseGeneration) ∧
      m.deltaBytes = (d.deltaSizes m.baseGeneration m.deltaCount).sum := by
  obtain ⟨_, hf, _, hlen⟩ := h.segment
  have hcount : m.deltaCount = deltas.length := by
    rw [Manifest.deltaCount, h.current, Nat.add_sub_cancel_left]
  refine ⟨?_, ?_⟩
  · rw [Disk.size, hf]
    exact hlen
  · have htotal := h.chain.total_eq (Nat.zero_le _)
    rw [Nat.zero_add, ← hcount] at htotal
    cases hz : m.deltaCount with
    | zero =>
      rw [hz] at htotal
      exact htotal.trans (Nat.min_eq_left (Nat.zero_le _))
    | succ n =>
      have hlt := hm.bytes (by omega)
      rw [hz] at htotal
      omega

def readCost : (o : FsOp) → o.Ans → Nat × Nat
  | .read (.segment _ _), .ok bytes => (1, bytes.length)
  | .read (.segment _ _), .error _ => (1, 0)
  | _, _ => 0

/-- The operation reads at most so much and leaves the disk alone. -/
def Fs.Spends (x : Fs α) (budget : Nat × Nat) (Q : Except IoError α → Prop) (d : Disk) : Prop :=
  Prog.Spends fileSystem readCost x.run budget (fun r d' => d' = d ∧ Q r) d

namespace Fs.Spends

variable {b c : Nat × Nat}

theorem ok {a : α} {Q : Except IoError α → Prop} (h : Q (.ok a)) :
    Fs.Spends (pure a) b Q d := ⟨rfl, h⟩

theorem error {e : IoError} {Q : Except IoError α → Prop} (h : Q (.error e)) :
    Fs.Spends (throw e) b Q d := ⟨rfl, h⟩

theorem bind {x : Fs α} {f : α → Fs β} {Q' : Except IoError α → Prop}
    {Q : Except IoError β → Prop} (hx : Fs.Spends x b Q' d)
    (hok : ∀ a, Q' (.ok a) → Fs.Spends (f a) c Q d)
    (herr : ∀ e, Q' (.error e) → Q (.error e)) : Fs.Spends (x >>= f) (b + c) Q d := by
  refine Prog.Spends.bind hx ?_
  rintro r d' ⟨rfl, hr⟩
  cases r with
  | ok a => exact hok a hr
  | error e => exact error (herr e hr)

theorem attempt {x : Fs α} {f : Except IoError α → Fs β} {Q' : Except IoError α → Prop}
    {Q : Except IoError β → Prop} (hx : Fs.Spends x b Q' d)
    (hf : ∀ r, Q' r → Fs.Spends (f r) c Q d) : Fs.Spends (x.attempt >>= f) (b + c) Q d := by
  have hlift : Fs.Spends x.attempt b (fun r => ∃ r', r = .ok r' ∧ Q' r') d := by
    have h : Fs.Spends x.attempt (b + 0) (fun r => ∃ r', r = .ok r' ∧ Q' r') d := by
      refine Prog.Spends.bind hx ?_
      rintro r d' ⟨rfl, hr⟩
      exact ok ⟨r, rfl, hr⟩
    rwa [add_zero] at h
  refine bind hlift ?_ nofun
  rintro r ⟨r', hr, hQ⟩
  cases hr
  exact hf r hQ

theorem mono {x : Fs α} {Q : Except IoError α → Prop} (hx : Fs.Spends x b Q d) (hb : b ≤ c) :
    Fs.Spends x c Q d := Prog.Spends.mono hx hb fun _ _ h => h

end Fs.Spends

theorem spends_readManifestVersion (h : ManifestAt C d (some m)) :
    Fs.Spends (readManifestVersion C) 0 (fun r => ∀ r', r = .ok r' → r' = some m) d := by
  obtain ⟨bytes, hf, hm⟩ := h
  have hread : Fs.Spends (Fs.read .manifest) 0 (fun r => r = .ok bytes ∨ r = .error .injected) d := by
    intro e
    refine ⟨0, le_rfl, ?_⟩
    cases e with
    | succeed names =>
      simp only [fileSystem, hf]
      exact ⟨rfl, .inl rfl⟩
    | fail w => exact ⟨rfl, .inr rfl⟩
  refine hread.attempt (c := 0) ?_
  rintro _ (rfl | rfl)
  · simp only [hm]
    exact .ok fun _ h => (Except.ok.inj h).symm
  · exact .error (by rintro _ ⟨⟩)

theorem spends_readSegmentBytes (kind : SegmentKind) (generation : Nat) (expected : Option Nat) :
    Fs.Spends (readSegmentBytes kind generation expected) (1, d.size (.segment kind generation))
      (fun _ => True) d := by
  have hread : Fs.Spends (Fs.read (.segment kind generation))
      (1, d.size (.segment kind generation)) (fun _ => True) d := by
    intro e
    refine ⟨0, ?_, ?_⟩
    · cases e with
      | succeed names =>
        simp only [fileSystem, Disk.size]
        cases d (.segment kind generation) <;> exact le_of_eq rfl
      | fail w => exact ⟨le_rfl, Nat.zero_le _⟩
    · cases e <;> exact ⟨rfl, trivial⟩
  refine (hread.attempt (c := 0) ?_).mono (add_zero _).le
  intro r _
  cases r with
  | ok bytes =>
    cases expected with
    | none => exact .ok trivial
    | some n =>
      simp only
      split
      · exact .error trivial
      · exact .ok trivial
  | error e =>
    simp only
    split
    · exact .error trivial
    · exact .error trivial

variable [LinearOrder K] [DecidableEq P]

theorem spends_recoverDeltas (generations : List Nat) (state : CausalState K V P T)
    (observed : Nat) :
    Fs.Spends (recoverDeltas C generations state observed)
      (generations.length, (generations.map fun i => d.size (.segment .delta i)).sum)
      (fun _ => True) d := by
  induction generations generalizing state observed with
  | nil => exact .ok trivial
  | cons generation generations ih =>
    rw [List.length_cons, List.map_cons, List.sum_cons, Nat.add_comm _ 1]
    refine (spends_readSegmentBytes .delta generation none).bind
      (c := (generations.length, (generations.map fun i => d.size (.segment .delta i)).sum)) ?_
      fun _ _ => trivial
    intro bytes _
    cases decodeVersion C.hash C.delta deltaMagic C.version bytes with
    | error e => exact .error trivial
    | ok segment =>
      simp only [Fs.ofExcept_ok_bind]
      split
      · exact .error trivial
      · exact ih _ _

theorem spends_recoverManifest (hle : m.baseGeneration ≤ m.currentGeneration)
    (hcur : m.currentGeneration ≤ u64Max) :
    Fs.Spends (recoverManifest C m)
      (1 + m.deltaCount, d.size (.segment .base m.baseGeneration) +
        (d.deltaSizes m.baseGeneration m.deltaCount).sum) (fun _ => True) d := by
  refine (spends_readSegmentBytes .base m.baseGeneration _).bind
    (c := (m.deltaCount, (d.deltaSizes m.baseGeneration m.deltaCount).sum)) ?_ fun _ _ => trivial
  intro bytes _
  cases decodeVersion C.hash C.base baseMagic C.version bytes with
  | error e => exact .error trivial
  | ok base =>
    simp only [Fs.ofExcept_ok_bind]
    split
    · exact .error trivial
    split
    · exact .ok trivial
    · next hne =>
      have hlt : m.baseGeneration < u64Max :=
        Nat.lt_of_lt_of_le (Nat.lt_of_le_of_ne hle (Ne.symm hne)) hcur
      have hdeltas := spends_recoverDeltas (C := C) (d := d)
        (List.range' (m.baseGeneration + 1) m.deltaCount) base.state.toCausal 0
      rw [List.length_range'] at hdeltas
      rw [saturatingAdd_one hlt, Nat.add_sub_add_right]
      refine (hdeltas.bind (c := 0) ?_ fun _ _ => trivial).mono (add_zero _).le
      rintro ⟨state, observed⟩ _
      simp only
      split
      · exact .error trivial
      · exact .ok trivial

theorem spends_load (h : ManifestAt C d (some m)) (hle : m.baseGeneration ≤ m.currentGeneration)
    (hcur : m.currentGeneration ≤ u64Max) :
    Fs.Spends (load C)
      (1 + m.deltaCount, d.size (.segment .base m.baseGeneration) +
        (d.deltaSizes m.baseGeneration m.deltaCount).sum) (fun _ => True) d := by
  have hfor : Fs.Spends (loadFor C) (1 + m.deltaCount, d.size (.segment .base m.baseGeneration) +
      (d.deltaSizes m.baseGeneration m.deltaCount).sum)
      (fun r => ∀ s, r = .ok s → s.isSome = true) d := by
    rw [← zero_add (1 + m.deltaCount, _)]
    refine (spends_readManifestVersion h).bind ?_ nofun
    intro r hr
    rw [hr r rfl]
    refine ((spends_recoverManifest hle hcur).bind (c := 0) ?_ fun _ _ => nofun).mono (add_zero _).le
    intro s _
    exact .ok fun _ hs => Except.ok.inj hs ▸ rfl
  refine (hfor.bind (c := 0) ?_ fun _ _ => trivial).mono (add_zero _).le
  intro r hr
  cases r with
  | none => exact absurd (hr none rfl) nofun
  | some s => exact .ok trivial

/-- What every published manifest `m` of a store promises. -/
structure ChainBounded (C : Codec K V P T) (d : Disk) (m : Manifest) : Prop where
  valid : validateManifest m = .ok ()
  deltas : m.deltaCount ≤ 512
  bytes : m.deltaCount ≠ 0 → m.deltaBytes < m.baseBytes
  segments : ∀ script, (Prog.spent fileSystem readCost script ((load C).run, d)).1 ≤ 513

/-- The sizes that the manifest records are those on disk, and bound what a load reads. -/
structure RecoveryBounded (C : Codec K V P T) (d : Disk) (m : Manifest) : Prop where
  base : m.baseBytes = d.size (.segment .base m.baseGeneration)
  sum : m.deltaBytes = (d.deltaSizes m.baseGeneration m.deltaCount).sum
  read : ∀ script, (Prog.spent fileSystem readCost script ((load C).run, d)).2 < 2 * m.baseBytes

theorem Held.chainBounded (h : Held C d m) : ChainBounded C d m := by
  refine ⟨h.valid, h.within.count, h.within.bytes, fun script => ?_⟩
  calc (Prog.spent fileSystem readCost script ((load C).run, d)).1
    _ ≤ 1 + m.deltaCount := ((spends_load h.manifestAt h.le h.bounded).spent_le script).1
    _ ≤ 513 := Nat.add_le_add_left h.within.count 1

theorem Committed.recoveryBounded {base : PersistedState K V P T}
    {deltas : List (PersistenceDelta K V P T)} (h : Committed C d m base deltas) (hm : m.Within)
    (hword : m.baseBytes ≤ u64Max) : RecoveryBounded C d m := by
  obtain ⟨hbase, hdeltas⟩ := h.sizes hm hword
  obtain ⟨_, hle, hpos, hzero, _⟩ := validateManifest_eq_ok.1 h.valid
  refine ⟨hbase, hdeltas, fun script => ?_⟩
  have hlt : m.deltaBytes < m.baseBytes := by
    rcases Nat.eq_zero_or_pos m.deltaCount with hz | hp
    · have hnone := hzero (Nat.le_antisymm hle (Nat.sub_eq_zero_iff_le.1 hz))
      omega
    · exact hm.bytes (Nat.ne_of_gt hp)
  calc (Prog.spent fileSystem readCost script ((load C).run, d)).2
    _ ≤ d.size (.segment .base m.baseGeneration) +
        (d.deltaSizes m.baseGeneration m.deltaCount).sum :=
      ((spends_load h.manifestAt hle h.bounded).spent_le script).2
    _ = m.baseBytes + m.deltaBytes := by rw [← hbase, ← hdeltas]
    _ < 2 * m.baseBytes := by omega

end

namespace Exhaustion

def wide : PersistedState Nat Nat Nat Nat :=
  ⟨[(1, .present 5 7), (2, .present 5 7), (3, .present 5 7), (4, .present 5 7)], ∅, ∅⟩

def baseAndDelta : List (Call Nat Nat Nat Nat) :=
  [⟨.full wide, List.replicate 20 (.succeed []), fun _ => none, false⟩,
    ⟨.delta (some ⟨∅, ∅, ∅, ∅⟩), List.replicate 20 (.succeed []), fun _ => none, false⟩]

end Exhaustion

/-- Starting without a manifest, after any saves with any faults and crashes the published manifest
is valid and has at most 512 deltas that are together smaller than the base, so that a load reads at
most 513 segments. Short of `2 ^ 64` saves it records the sizes of its segments, so that a load reads
less than twice the base. -/
theorem recovery_chain_bounded [LinearOrder K] [DecidableEq P] (C : Codec K V P T) (hC : C.Words)
    (d : Disk) (hm : d .manifest = none) (calls : List (Call K V P T)) (f : File)
    (hf : Call.runAll C d calls .manifest = some f) :
    ∃ m, decodeManifest C f.bytes = .ok m ∧ ChainBounded C (Call.runAll C d calls) m ∧
      (calls.length < 2 ^ 64 → RecoveryBounded C (Call.runAll C d calls) m) := by
  have hempty : Intact C d := ⟨none, hm⟩
  obtain ⟨r, hr⟩ := hempty.runAll hC calls
  cases r with
  | none =>
    have hnone : Call.runAll C d calls .manifest = none := hr
    rw [hnone] at hf
    cases hf
  | some m =>
    have hheld : Held C (Call.runAll C d calls) m := hr
    obtain ⟨bytes, hb, hdec⟩ := hheld.manifestAt
    rw [hb] at hf
    cases hf
    refine ⟨m, hdec, hheld.chainBounded, fun hlen => ?_⟩
    rcases storeAt_runAll hm calls (by unfold u64Max; omega) with hnone | ⟨_, _, _, m', hc, _⟩
    · rw [hb] at hnone
      cases hnone
    · cases hheld.manifestAt.unique hc.manifestAt
      exact hc.recoveryBounded hheld.within (hheld.baseBytes_le hC)

theorem recovery_chain_bounded_oneDelta :
    ∃ f, Call.runAll Exhaustion.C (fun _ => none) Exhaustion.baseAndDelta .manifest = some f ∧
      ∃ m, decodeManifest Exhaustion.C f.bytes = .ok m ∧
        ChainBounded Exhaustion.C
          (Call.runAll Exhaustion.C (fun _ => none) Exhaustion.baseAndDelta) m ∧
        RecoveryBounded Exhaustion.C
          (Call.runAll Exhaustion.C (fun _ => none) Exhaustion.baseAndDelta) m := by
  have hsome : (Call.runAll Exhaustion.C (fun _ => none) Exhaustion.baseAndDelta
      .manifest).isSome = true := by decide +kernel
  obtain ⟨f, hf⟩ := Option.isSome_iff_exists.1 hsome
  obtain ⟨m, hdec, hchain, hsizes⟩ := recovery_chain_bounded Exhaustion.C
    (u64Codec_words formatVersion) (fun _ => none) rfl Exhaustion.baseAndDelta f hf
  exact ⟨f, hf, m, hdec, hchain, hsizes (by decide)⟩

namespace Exhaustion

theorem write_wide : ∃ body, Layout.persistedState.write wide = some body ∧ body.length = 136 :=
  ⟨_, rfl, rfl⟩

def empty : PersistenceDelta Nat Nat Nat Nat := ⟨∅, ∅, ∅, ∅⟩

theorem write_empty : ∃ body, Layout.persistenceDelta.write empty = some body ∧ body.length = 32 :=
  ⟨_, rfl, rfl⟩

theorem encode_empty {g g' : Nat} (hg : g ≤ u64Max) (hg' : g' ≤ u64Max) :
    ∃ bytes, encodeVersion C.hash C.delta deltaMagic ⟨g, g', empty⟩ C.version = .ok bytes ∧
      bytes.length = 88 := by
  obtain ⟨body, hs, hb⟩ := write_empty
  have hu : ∀ n, n ≤ u64Max → (Wire.uint 8).write n = some (Wire.leBytes 8 n) :=
    fun n hn => if_pos (Nat.lt_of_le_of_lt hn (by decide))
  have hw : C.delta.serialize ⟨g, g', empty⟩ =
      some (Wire.leBytes 8 g ++ (Wire.leBytes 8 g' ++ body)) := by
    change (do
      let a ← (Wire.uint 8).write g
      let b ← (do
        let a ← (Wire.uint 8).write g'
        let b ← Layout.persistenceDelta.write empty
        return a ++ b)
      return a ++ b) = _
    rw [hu g hg, hu g' hg', hs]
    rfl
  refine ⟨_, by rw [encodeVersion, hw], ?_⟩
  simp only [List.length_append, Wire.leBytes_length, toLeBytes, List.length_cons, List.length_nil,
    deltaMagic, C.hash_length, objectChecksumLen, hb]

theorem exists_delta {d : Disk} {g b n : Nat} (hat : ManifestAt C d (some ⟨b, 184, g, n⟩))
    (hb : b ≠ 0) (hle : b ≤ g) (hg : g ≤ u64Max) (hone : g ≤ b + 1) (hn : n ≤ 88)
    (hlt : b < saturatingAdd g 1) :
    ∃ c : Call Nat Nat Nat Nat,
      ManifestAt C (c.disk C d) (some ⟨b, 184, saturatingAdd g 1, n + 88⟩) ∧
      (c.disk C d).size (.segment .delta (saturatingAdd g 1)) = 88 := by
  have hto : saturatingAdd g 1 ≤ u64Max := Nat.min_le_right _ _
  obtain ⟨bytes, he, hl⟩ := encode_empty hg hto
  have hsum : saturatingAdd n bytes.length = n + 88 := by
    rw [hl, saturatingAdd]
    unfold u64Max
    omega
  have hroom : shouldMaterialize ⟨b, 184, g, n⟩ bytes.length = false := by
    rw [shouldMaterialize, hsum, Bool.or_eq_false_iff]
    constructor
    · exact decide_eq_false (by simp only [Manifest.deltaCount, maxCommittedDeltas]; omega)
    · exact decide_eq_false (by simp only; omega)
  have hv : validateManifest ⟨b, 184, saturatingAdd g 1, n + 88⟩ = .ok () :=
    validateManifest_eq_ok.2 ⟨hb, Nat.le_of_lt hlt, Nat.succ_ne_zero 183,
      fun h => absurd h (Nat.ne_of_lt hlt), fun _ => Nat.succ_ne_zero _⟩
  obtain ⟨mbytes, hme⟩ := encode_manifest (m := ⟨b, 184, saturatingAdd g 1, n + 88⟩)
    (hle.trans hg) (by unfold u64Max; simp only; omega) hto (by unfold u64Max; simp only; omega)
  obtain ⟨d₁, hq, hw⟩ := quiet_writeAtomic (.segment .delta (saturatingAdd g 1)) bytes d
  obtain ⟨d₂, hp, hwm⟩ := quiet_publish (d := d₁) hv hme
  have hop : ((SaveOp.delta (some empty)).prog C).quiet d = (.ok true, d₂) := by
    simp only [SaveOp.prog, trySaveDeltaFor, Fs.quiet_bind, quiet_readManifestVersion hat,
      appendDelta, he, Fs.quiet_ofExcept, hroom, Bool.false_eq_true, ↓reduceIte,
      writeEncodedSegment, hq, Fs.quiet_pure, hsum, hp]
  obtain ⟨c, hc⟩ := exists_call hop
  refine ⟨c, ?_⟩
  rw [hc]
  refine ⟨⟨mbytes, hwm.file, ?_⟩, ?_⟩
  · have hd := decodeVersion_encodeVersion rfl C.hash_length hme
    simp only [decodeManifest, hd, hv, bind, Except.bind, pure, Except.pure]
  · rw [Disk.size, hwm.frame (.segment .delta _) (by rintro ⟨⟩) (by rintro ⟨⟩), hw.file]
    exact hl

theorem manifestAt_wide {d : Disk} {g : Nat} (h : StoreAt C d (.chain wide []) g) :
    ManifestAt C d (some ⟨g, 184, g, 0⟩) := by
  obtain ⟨m, hc, rfl⟩ := h
  have hbase : m.baseGeneration = m.currentGeneration := hc.current.symm
  obtain ⟨body, hs, hb⟩ := write_wide
  obtain ⟨bytes, he, hl⟩ := encode_base hc.bounded hs
  obtain ⟨_, _, hbe, hbl⟩ := hc.segment
  rw [hbase, he] at hbe
  cases hbe
  have hm : m = ⟨m.currentGeneration, 184, m.currentGeneration, 0⟩ := by
    obtain ⟨b, n, g, t⟩ := m
    have ht : 0 = t := hc.chain
    simp only [hl, hb] at hbl hbase
    rw [hbl, hbase, ← ht]
  rw [← hm]
  exact hc.manifestAt

/-- Two deltas over a base of the generation before the last: the second has the file name of the
first. -/
theorem exists_overcount {d : Disk} {n : Nat} (hn : n + 3 = u64Max)
    (h : StoreAt C d (.chain wide []) (n + 2)) : ∃ c c' : Call Nat Nat Nat Nat,
      ManifestAt C (c'.disk C (c.disk C d)) (some ⟨n + 2, 184, n + 3, 176⟩) ∧
      (c'.disk C (c.disk C d)).deltaSizes (n + 2) 1 = [88] := by
  have hnext : saturatingAdd (n + 2) 1 = n + 3 := saturatingAdd_one (by omega)
  have hlast : saturatingAdd (n + 3) 1 = n + 3 := hn ▸ Nat.min_eq_right (Nat.le_succ _)
  obtain ⟨c, hc, _⟩ := exists_delta (manifestAt_wide h) (Nat.succ_ne_zero _) (le_refl _)
    (by omega) (Nat.le_succ _) (by omega) (hnext ▸ Nat.lt_succ_self _)
  rw [hnext] at hc
  obtain ⟨c', hc', hsize⟩ := exists_delta hc (Nat.succ_ne_zero _) (Nat.le_succ _)
    (Nat.le_of_eq hn) (le_refl _) (le_refl _) (hlast.symm ▸ Nat.lt_succ_self _)
  rw [hlast] at hc' hsize
  exact ⟨c, c', hc', congrArg (fun k => [k]) hsize⟩

end Exhaustion

/-- With `2 ^ 64` calls the generation counter saturates: a second delta replaces the file of the
last generation, and the manifest counts both. -/
theorem recovery_chain_overcounted : ∃ calls : List (Call Nat Nat Nat Nat), calls.length = 2 ^ 64 ∧
    ∃ m, ManifestAt (u64Codec formatVersion)
        (Call.runAll (u64Codec formatVersion) (fun _ => none) calls) (some m) ∧
      m.deltaBytes ≠ ((Call.runAll (u64Codec formatVersion) (fun _ => none) calls).deltaSizes
        m.baseGeneration m.deltaCount).sum := by
  obtain ⟨n, hn⟩ : ∃ n, n + 3 = u64Max :=
    ⟨u64Max - 3, Nat.sub_add_cancel (by unfold u64Max; omega)⟩
  obtain ⟨calls, hl, h⟩ := Exhaustion.exists_saves n (by omega)
  obtain ⟨body, hs, hb⟩ := Exhaustion.write_wide
  obtain ⟨c₀, h₀⟩ := Exhaustion.exists_save hs (by rw [hb]; decide) h (by omega)
  obtain ⟨c₁, c₂, hm, hsizes⟩ := Exhaustion.exists_overcount hn h₀
  refine ⟨calls ++ [c₀, c₁, c₂], ?_, ⟨n + 2, 184, n + 3, 176⟩, ?_, ?_⟩
  · rw [List.length_append, hl]
    simp only [List.length_cons, List.length_nil]
    unfold u64Max at hn
    omega
  · rw [Call.runAll, List.foldl_append]
    exact hm
  · have hcount : Manifest.deltaCount ⟨n + 2, 184, n + 3, 176⟩ = 1 :=
      Nat.add_sub_cancel_left (n + 2) 1
    rw [hcount, Call.runAll, List.foldl_append]
    intro heq
    have hsum : 176 = 88 := heq.trans (congrArg List.sum hsizes)
    exact absurd hsum (by decide)

end Reconcile
