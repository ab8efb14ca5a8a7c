import Reconcile.StoreInvariant

namespace Reconcile
open Lib
set_option autoImplicit true

variable {K V P T : Type}
variable {adm : FsOp → Decision → Disk → Prop} {I : Disk → Prop} {C : Codec K V P T} {d : Disk}

theorem ensures_readManifestBytes {m : Option Manifest} (h : ManifestAt C d m) (hI : I d) :
    Fs.Ensures adm I (Fs.read .manifest) (fun r d' => d' = d ∧ match r with
      | .ok bytes => ∃ m', m = some m' ∧ decodeManifest C bytes = .ok m'
      | .error e => e.kind = .notFound → m = none) d := by
  refine Fs.ensures_read hI ?_ ?_ (fun _ _ => ⟨rfl, fun h => absurd h (by decide)⟩)
  · intro f hf
    cases m with
    | none => rw [ManifestAt, hf] at h; cases h
    | some m =>
      obtain ⟨bytes, hb, hm⟩ := h
      rw [hf] at hb
      cases hb
      exact ⟨rfl, m, rfl, hm⟩
  · intro hf
    refine ⟨rfl, fun _ => ?_⟩
    cases m with
    | none => rfl
    | some m =>
      obtain ⟨bytes, hb, _⟩ := h
      rw [hf] at hb
      cases hb

theorem ensures_readManifestVersion {m : Option Manifest} (h : ManifestAt C d m) (hI : I d) :
    Fs.Ensures adm I (readManifestVersion C) (fun r d' => d' = d ∧ match r with
      | .ok m' => m' = m
      | .error _ => True) d := by
  refine Fs.ensures_bind (Fs.ensures_attempt (ensures_readManifestBytes h hI)) ?_
    (fun _ _ h => h.elim)
  rintro r d' hI' ⟨rfl, hr⟩
  cases r with
  | ok bytes =>
    obtain ⟨m', rfl, hm⟩ := hr
    simp only [hm]
    exact Fs.ensures_pure hI' ⟨rfl, rfl⟩
  | error e =>
    simp only
    split
    · next hk => exact Fs.ensures_pure hI' ⟨rfl, (hr hk).symm⟩
    · exact Fs.ensures_throw hI' ⟨rfl, trivial⟩

theorem ensures_publishManifestVersion {m : Manifest}
    (hI₀ : ∀ d', d.Untouched .manifest d' → I d')
    (hI₁ : ∀ d' bytes, d.Written .manifest bytes d' → validateManifest m = .ok () →
      encodeVersion C.hash C.manifest manifestMagic m C.version = .ok bytes → I d') :
    Fs.Ensures adm I (publishManifestVersion C m) (fun r d' => match r with
      | .ok _ => ∃ bytes, d.Written .manifest bytes d' ∧ validateManifest m = .ok () ∧
          encodeVersion C.hash C.manifest manifestMagic m C.version = .ok bytes
      | .error _ => d.Untouched .manifest d' ∨
          (∃ bytes, d.Written .manifest bytes d' ∧ validateManifest m = .ok () ∧
            encodeVersion C.hash C.manifest manifestMagic m C.version = .ok bytes) ∧
          ∃ w, adm (.effect (.syncParent .manifest)) (.fail w) d') d := by
  have h₀ : d.Untouched .manifest d := fun _ _ => rfl
  cases hv : validateManifest m with
  | error e =>
    have hp : publishManifestVersion C m = throw e := by
      rw [publishManifestVersion, hv, Fs.ofExcept_error_bind]
    rw [hp]
    exact Fs.ensures_throw (hI₀ d h₀) (.inl h₀)
  | ok u =>
    cases he : encodeVersion C.hash C.manifest manifestMagic m C.version with
    | error e =>
      have hp : publishManifestVersion C m = throw e := by
        rw [publishManifestVersion, hv, he, Fs.ofExcept_ok_bind, Fs.ofExcept_error_bind]
      rw [hp]
      exact Fs.ensures_throw (hI₀ d h₀) (.inl h₀)
    | ok bytes =>
      have hp : publishManifestVersion C m = writeAtomic .manifest bytes := by
        rw [publishManifestVersion, hv, he, Fs.ofExcept_ok_bind, Fs.ofExcept_ok_bind]
      rw [hp]
      refine (ensures_writeAtomic hI₀ fun d' hw => hI₁ d' bytes hw hv he).mono (fun _ h => h) ?_
      intro r d' h
      cases r with
      | ok a => exact ⟨bytes, h, rfl, rfl⟩
      | error e =>
        rcases h with h | ⟨h, hw⟩
        · exact .inl h
        · exact .inr ⟨⟨bytes, h, rfl, rfl⟩, hw⟩

theorem exec_removeFile (name : FileName) (e : Decision) (d : Disk) :
    (fileSystem.exec (.effect (.removeFile name)) e d).2 = d ∨
      (fileSystem.exec (.effect (.removeFile name)) e d).2 = Function.update d name none := by
  cases e with
  | succeed names =>
    simp only [fileSystem, Effect.apply]
    cases d name with
    | some f => exact .inr rfl
    | none => exact .inl rfl
  | fail w => exact .inl rfl

/-- What survives any deletion except of the manifest and of one base segment. -/
def Kept (keep : Nat) (S : Disk → Prop) : Prop :=
  ∀ d name, S d → name ≠ .manifest → name ≠ .segment .base keep → S (Function.update d name none)

theorem Kept.removeFile {S : Disk → Prop} (h : Kept keep S) (name : FileName) (hd : S d)
    (hm : name ≠ .manifest) (hb : name ≠ .segment .base keep) (e : Decision) :
    S (fileSystem.exec (.effect (.removeFile name)) e d).2 := by
  rcases exec_removeFile name e d with he | he <;> rw [he]
  · exact hd
  · exact h d name hd hm hb

theorem always_removeObsolete {S : Disk → Prop} (hS : Kept keep S) (hI : ∀ d, S d → I d)
    (names : List FileName) (hd : S d) :
    Prog.Always fileSystem (.alone Disk) adm I (removeObsolete keep names)
      (fun _ d' => S d') d := by
  induction names generalizing d with
  | nil => exact Fs.always_pure (hI d hd) hd
  | cons name names ih =>
    rw [removeObsolete]
    split
    · exact ih hd
    · next hn =>
      obtain ⟨hm, hb, _⟩ : name ≠ .manifest ∧ name ≠ .segment .base keep ∧ _ := by
        simpa only [not_or] using hn
      exact Fs.always_perform (hI d hd) fun e _ => ih (hS.removeFile name hd hm hb e)

theorem always_cleanup {S : Disk → Prop} (hS : Kept keep S) (hI : ∀ d, S d → I d) (hd : S d) :
    Prog.Always fileSystem (.alone Disk) adm I (cleanupAfterFullMaterialization keep)
      (fun _ d' => S d') d := by
  apply Fs.always_perform (hI d hd)
  intro e _
  have he : (fileSystem.exec .readDir e d).2 = d := by cases e <;> rfl
  rw [he]
  refine (always_removeObsolete hS hI _ hd).bind ?_
  intro _ d₁ _ hd₁
  apply Fs.always_perform (hI d₁ hd₁)
  intro e₁ _
  have hd₂ := hS.removeFile .snapshot hd₁ nofun nofun e₁
  apply Fs.always_perform (hI _ hd₂)
  intro e₂ _
  cases e₂ <;> exact Fs.always_pure (hI _ hd₂) hd₂

variable {A : Image K V P T} {g : Nat} {s : PersistedState K V P T}

theorem StoreAt.untouched {d' : Disk} {path : FileName} (h : StoreAt C d A g)
    (hu : d.Untouched path d') : StoreAt C d' A g :=
  h.congr fun name hn => hu name (by rintro rfl; exact hn)

/-- Segments of later generations can be written without disturbing the store. -/
theorem StoreAt.written_segment {d' : Disk} {kind : SegmentKind} {generation : Nat} {bytes : Bytes}
    (h : StoreAt C d A g) (hg : g < generation)
    (hw : d.Written (.segment kind generation) bytes d') : StoreAt C d' A g := by
  refine h.congr fun name hn => hw.frame name ?_ ?_
  · rintro rfl
    exact absurd hn (Nat.not_le.2 hg)
  · rintro rfl
    exact hn

theorem ensures_writeEncodedSegment {kind : SegmentKind} {generation : Nat} {bytes : Bytes}
    (h : StoreAt C d A g) (hg : g < generation) (hI : ∀ d', StoreAt C d' A g → I d') :
    Fs.Ensures adm I (writeEncodedSegment kind generation bytes) (fun r d' =>
      StoreAt C d' A g ∧ match r with
        | .ok n => n = bytes.length ∧ d.Written (.segment kind generation) bytes d'
        | .error _ => True) d := by
  have hu : ∀ d', d.Untouched (.segment kind generation) d' → StoreAt C d' A g :=
    fun _ hu => h.untouched hu
  have hw : ∀ d', d.Written (.segment kind generation) bytes d' → StoreAt C d' A g :=
    fun _ hw => h.written_segment hg hw
  refine Fs.ensures_bind (ensures_writeAtomic (fun d' h' => hI d' (hu d' h'))
    fun d' h' => hI d' (hw d' h')) ?_ ?_
  · intro _ d' hd hok
    exact Fs.ensures_pure hd ⟨hw d' hok, rfl, hok⟩
  · intro e d' herr
    rcases herr with h' | ⟨h', _⟩
    · exact ⟨hu d' h', trivial⟩
    · exact ⟨hw d' h', trivial⟩

theorem storeAt_published_base {d₁ d₂ : Disk} {bytes mbytes : Bytes}
    (hw : d.Written (.segment .base g) bytes d₁)
    (he : encodeVersion C.hash C.base baseMagic ⟨g, s⟩ C.version = .ok bytes)
    (hm : d₁.Written .manifest mbytes d₂)
    (hv : validateManifest ⟨g, bytes.length, g, 0⟩ = .ok ())
    (hme : encodeVersion C.hash C.manifest manifestMagic ⟨g, bytes.length, g, 0⟩ C.version =
      .ok mbytes) (hg : g ≤ u64Max) : StoreAt C d₂ (.chain s []) g := by
  refine ⟨⟨g, bytes.length, g, 0⟩, ⟨⟨mbytes, hm.file, hme⟩, hv, ⟨bytes, ?_, he, rfl⟩, rfl, rfl, hg⟩,
    rfl⟩
  rw [hm.frame (.segment .base g) nofun nofun]
  exact hw.file

theorem kept_base : Kept g (fun d => StoreAt C d (.chain s []) g) := by
  rintro d name ⟨m, hc, hg⟩ hm hb
  have hbase : m.baseGeneration = g := hc.current.symm.trans hg
  obtain ⟨mb, hmf, hme⟩ := hc.manifest
  obtain ⟨bb, hbf, hbe⟩ := hc.segment
  refine ⟨m, ⟨⟨mb, ?_, hme⟩, hc.valid, ⟨bb, ?_, hbe⟩, hc.chain, hc.current, hc.bounded⟩, hg⟩
  · rw [Function.update_of_ne (Ne.symm hm)]
    exact hmf
  · rw [hbase] at hbf ⊢
    rw [Function.update_of_ne (Ne.symm hb)]
    exact hbf

/-- A full save replaces the image. An error after the replacement is that of the directory sync
that follows the manifest rename. -/
theorem ensures_materialize (h : StoreAt C d A g) (hg : g < u64Max) :
    Fs.Ensures adm (fun d' => StoreAt C d' A g ∨ StoreAt C d' (.chain s []) (g + 1))
      (materialize C s (g + 1)) (fun r d' => match r with
        | .ok _ => StoreAt C d' (.chain s []) (g + 1)
        | .error _ => StoreAt C d' A g ∨ (StoreAt C d' (.chain s []) (g + 1) ∧
            ∃ w, adm (.effect (.syncParent .manifest)) (.fail w) d')) d := by
  refine Fs.ensures_then (.inl h) rfl (.inl h) (fun _ _ => ⟨.inl h, .inl h⟩) ?_
  cases he : encodeVersion C.hash C.base baseMagic ⟨g + 1, s⟩ C.version with
  | error e =>
    simp only [writeSegmentVersion, he, Fs.ofExcept_error_bind]
    exact Fs.ensures_throw (.inl h) (.inl h)
  | ok bytes =>
    simp only [writeSegmentVersion, he, Fs.ofExcept_ok_bind]
    refine Fs.ensures_bind (ensures_writeEncodedSegment h (Nat.lt_succ_self g) fun _ => .inl) ?_
      (fun e d' h' => .inl h'.1)
    rintro n d₁ _ ⟨h₁, rfl, hw⟩
    have hu : ∀ d', d₁.Untouched .manifest d' → StoreAt C d' A g := fun _ hu => h₁.untouched hu
    have hp : ∀ d' mbytes, d₁.Written .manifest mbytes d' →
        validateManifest ⟨g + 1, bytes.length, g + 1, 0⟩ = .ok () →
        encodeVersion C.hash C.manifest manifestMagic ⟨g + 1, bytes.length, g + 1, 0⟩ C.version =
          .ok mbytes → StoreAt C d' (.chain s []) (g + 1) :=
      fun _ _ hm hv hme => storeAt_published_base hw he hm hv hme hg
    refine Fs.ensures_bind (ensures_publishManifestVersion (fun d' h' => .inl (hu d' h'))
      fun d' mbytes hm hv hme => .inr (hp d' mbytes hm hv hme)) ?_ ?_
    · rintro _ d₂ _ ⟨mbytes, hm, hv, hme⟩
      exact Fs.ensures_lift (always_cleanup kept_base (fun _ => .inr) (hp d₂ mbytes hm hv hme))
    · rintro e d₂ (h' | ⟨⟨mbytes, hm, hv, hme⟩, hf⟩)
      · exact .inl (hu d₂ h')
      · exact .inr ⟨hp d₂ mbytes hm hv hme, hf⟩

theorem ensures_refuseIncompatible {err : IoError} (hI : I d) :
    Fs.Ensures adm I (refuseIncompatible C err) (fun _ d' => d' = d) d := by
  rw [refuseIncompatible]
  split
  · exact Fs.ensures_pure hI rfl
  · have hx : Fs.Ensures adm I (Fs.pathExists .snapshot) (fun _ d' => d' = d) d := by
      apply Fs.ensures_lift
      apply Fs.always_perform hI
      intro e _
      cases e <;> exact Fs.always_pure hI rfl
    refine Fs.ensures_bind hx ?_ (fun _ _ h => h)
    rintro b d' _ rfl
    cases b
    · exact Fs.ensures_pure hI rfl
    · exact Fs.ensures_throw hI rfl

theorem saturatingAdd_one {n : Nat} (h : n < u64Max) : saturatingAdd n 1 = n + 1 := by
  rw [saturatingAdd]
  omega

theorem ensures_saveFullFor (h : StoreAt C d A g) (hg : g < u64Max) :
    Fs.Ensures adm (fun d' => StoreAt C d' A g ∨ StoreAt C d' (.chain s []) (g + 1))
      (saveFullFor C s) (fun r d' => match r with
        | .ok _ => StoreAt C d' (.chain s []) (g + 1)
        | .error _ => StoreAt C d' A g ∨ (StoreAt C d' (.chain s []) (g + 1) ∧
            ∃ w, adm (.effect (.syncParent .manifest)) (.fail w) d')) d := by
  cases A with
  | bare legacy =>
    have hm : ManifestAt C d none := h.1
    have h0 : g = 0 := h.2.2
    refine Fs.ensures_bind (ensures_readManifestVersion hm (.inl h)) ?_ ?_
    · rintro _ d' _ ⟨rfl, rfl⟩
      refine Fs.ensures_bind (ensures_refuseIncompatible (.inl h)) ?_ ?_
      · rintro _ d' _ rfl
        subst h0
        exact ensures_materialize h hg
      · rintro e d' rfl
        exact .inl h
    · rintro e d' ⟨rfl, _⟩
      exact .inl h
  | chain base deltas =>
    obtain ⟨m, hc, hcur⟩ := id h
    refine Fs.ensures_bind (ensures_readManifestVersion hc.manifestAt (.inl h)) ?_ ?_
    · rintro _ d' _ ⟨rfl, rfl⟩
      simp only [hcur, saturatingAdd_one hg]
      exact ensures_materialize h hg
    · rintro e d' ⟨rfl, _⟩
      exact .inl h

variable {base : PersistedState K V P T} {deltas : List (PersistenceDelta K V P T)} {m : Manifest}

theorem storeAt_published_delta {d₁ d₂ : Disk} {bytes mbytes : Bytes}
    {delta : PersistenceDelta K V P T} (hc : Committed C d m base deltas)
    (hw : d.Written (.segment .delta (m.currentGeneration + 1)) bytes d₁)
    (he : encodeVersion C.hash C.delta deltaMagic
      ⟨m.currentGeneration, m.currentGeneration + 1, delta⟩ C.version = .ok bytes)
    (hm : d₁.Written .manifest mbytes d₂)
    (hv : validateManifest { m with
      currentGeneration := m.currentGeneration + 1
      deltaBytes := saturatingAdd m.deltaBytes bytes.length } = .ok ())
    (hme : encodeVersion C.hash C.manifest manifestMagic { m with
      currentGeneration := m.currentGeneration + 1
      deltaBytes := saturatingAdd m.deltaBytes bytes.length } C.version = .ok mbytes)
    (hg : m.currentGeneration < u64Max) :
    StoreAt C d₂ (.chain base (deltas ++ [delta])) (m.currentGeneration + 1) := by
  have hframe : ∀ kind i, (kind = .delta → i ≤ m.currentGeneration) →
      d₂ (.segment kind i) = d (.segment kind i) := by
    intro kind i hi
    rw [hm.frame (.segment kind i) nofun nofun, hw.frame (.segment kind i) ?_ nofun]
    intro h
    injection h with hk hn
    exact absurd (hi hk) (by omega)
  obtain ⟨bb, hbf, hbe, hbl⟩ := hc.segment
  refine ⟨_, ⟨⟨mbytes, hm.file, hme⟩, hv, ⟨bb, ?_, hbe, hbl⟩, ?_, ?_, hg⟩, rfl⟩
  · rw [hframe .base _ nofun]
    exact hbf
  · have hchain := hc.chain.congr (Nat.le_of_eq hc.current.symm)
      fun i hi => hframe .delta i fun _ => hi
    apply hchain.push
    · rw [← hc.current, hm.frame (.segment .delta _) nofun nofun]
      exact hw.file
    · rw [← hc.current]
      exact he
  · simp only [List.length_append, List.length_singleton, hc.current]
    omega

theorem ensures_appendDelta {delta : PersistenceDelta K V P T} (hc : Committed C d m base deltas)
    (hcur : m.currentGeneration = g) (hg : g < u64Max) :
    Fs.Ensures adm (fun d' => StoreAt C d' (.chain base deltas) g ∨
        StoreAt C d' (.chain base (deltas ++ [delta])) (g + 1))
      (appendDelta C m delta) (fun r d' => match r with
        | .ok true => StoreAt C d' (.chain base (deltas ++ [delta])) (g + 1) ∧
            ∃ bytes, encodeVersion C.hash C.delta deltaMagic ⟨g, g + 1, delta⟩ C.version =
              .ok bytes ∧ shouldMaterialize m bytes.length = false
        | .ok false => StoreAt C d' (.chain base deltas) g
        | .error _ => StoreAt C d' (.chain base deltas) g ∨
            StoreAt C d' (.chain base (deltas ++ [delta])) (g + 1)) d := by
  subst hcur
  have h : StoreAt C d (.chain base deltas) m.currentGeneration := ⟨m, hc, rfl⟩
  simp only [appendDelta, saturatingAdd_one hg]
  cases he : encodeVersion C.hash C.delta deltaMagic
      ⟨m.currentGeneration, m.currentGeneration + 1, delta⟩ C.version with
  | error e => exact Fs.ensures_throw (.inl h) (.inl h)
  | ok bytes =>
    rw [Fs.ofExcept_ok_bind]
    split
    · exact Fs.ensures_pure (.inl h) h
    · next hs =>
      refine Fs.ensures_bind (ensures_writeEncodedSegment h (Nat.lt_succ_self _) fun _ => .inl) ?_
        (fun e d' h' => .inl h'.1)
      rintro n d₁ _ ⟨h₁, rfl, hw⟩
      refine Fs.ensures_bind (ensures_publishManifestVersion (fun d' h' => .inl (h₁.untouched h'))
        fun d' mbytes hm hv hme => .inr (storeAt_published_delta hc hw he hm hv hme hg)) ?_ ?_
      · rintro _ d₂ hI₂ ⟨mbytes, hm, hv, hme⟩
        exact Fs.ensures_pure hI₂ ⟨storeAt_published_delta hc hw he hm hv hme hg, bytes, rfl,
          Bool.eq_false_iff.2 hs⟩
      · rintro e d₂ (h' | ⟨⟨mbytes, hm, hv, hme⟩, _⟩)
        · exact .inl (h₁.untouched h')
        · exact .inr (storeAt_published_delta hc hw he hm hv hme hg)

def Image.extend : Image K V P T → Option (PersistenceDelta K V P T) → Image K V P T
  | .chain base deltas, some delta => .chain base (deltas ++ [delta])
  | A, _ => A

/-- The backend asks for a full save instead of this delta: there is no manifest, or the delta is one
too many for it. -/
def Declines (C : Codec K V P T) (d : Disk) (delta : PersistenceDelta K V P T) : Prop :=
  d .manifest = none ∨ ∃ m bytes, ManifestAt C d (some m) ∧
    encodeVersion C.hash C.delta deltaMagic
      ⟨m.currentGeneration, saturatingAdd m.currentGeneration 1, delta⟩ C.version = .ok bytes ∧
    shouldMaterialize m bytes.length = true

theorem not_declines {delta : PersistenceDelta K V P T} {bytes : Bytes}
    (hc : Committed C d m base deltas) (hcur : m.currentGeneration = g) (hg : g < u64Max)
    (he : encodeVersion C.hash C.delta deltaMagic ⟨g, g + 1, delta⟩ C.version = .ok bytes)
    (hs : shouldMaterialize m bytes.length = false) : ¬Declines C d delta := by
  subst hcur
  have hnone : ¬ManifestAt C d none := fun h => nomatch hc.manifestAt.unique h
  rintro (h | ⟨m', bytes', hm, he', hs'⟩)
  · exact hnone h
  · cases hc.manifestAt.unique hm
    rw [saturatingAdd_one hg, he] at he'
    cases he'
    rw [hs] at hs'
    cases hs'

theorem ensures_trySaveDeltaFor {delta : Option (PersistenceDelta K V P T)}
    (h : StoreAt C d A g) (hg : g < u64Max) :
    Fs.Ensures adm (fun d' => StoreAt C d' A g ∨ StoreAt C d' (A.extend delta) (g + 1))
      (trySaveDeltaFor C delta) (fun r d' => match r with
        | .ok true => (∃ g', g' ≤ g + 1 ∧ StoreAt C d' (A.extend delta) g') ∧
            (∃ base deltas, A = .chain base deltas) ∧ ∀ x, delta = some x → ¬Declines C d x
        | .ok false => StoreAt C d' A g
        | .error _ => StoreAt C d' A g ∨ StoreAt C d' (A.extend delta) (g + 1)) d := by
  cases A with
  | bare legacy =>
    have hm : ManifestAt C d none := h.1
    refine Fs.ensures_bind (ensures_readManifestVersion hm (.inl h)) ?_ ?_
    · rintro _ d' _ ⟨rfl, rfl⟩
      refine Fs.ensures_bind (ensures_refuseIncompatible (.inl h)) ?_ ?_
      · rintro _ d' hI rfl
        exact Fs.ensures_pure hI h
      · rintro e d' rfl
        exact .inl h
    · rintro e d' ⟨rfl, _⟩
      exact .inl h
  | chain base deltas =>
    obtain ⟨m, hc, hcur⟩ := id h
    refine Fs.ensures_bind (ensures_readManifestVersion hc.manifestAt (.inl h)) ?_ ?_
    · rintro _ d' hI ⟨rfl, rfl⟩
      cases delta with
      | none => exact Fs.ensures_pure hI ⟨⟨g, Nat.le_succ g, h⟩, ⟨base, deltas, rfl⟩, nofun⟩
      | some delta =>
        refine (ensures_appendDelta hc hcur hg).mono (fun _ h => h) ?_
        intro r d₁ hr
        cases r with
        | error e => exact hr
        | ok b =>
          cases b with
          | false => exact hr
          | true =>
            obtain ⟨hst, bytes, he, hs⟩ := hr
            refine ⟨⟨g + 1, le_refl _, hst⟩, ⟨base, deltas, rfl⟩, ?_⟩
            intro x hx
            cases hx
            exact not_declines hc hcur hg he hs
    · rintro e d' ⟨rfl, _⟩
      exact .inl h

end Reconcile
