import Reconcile.Published

namespace Reconcile
open Lib
set_option autoImplicit true

variable {K V P T : Type}

/-- The object is long enough for a header and a checksum, and the checksum is the hash of what
stands between them. -/
def Sealed (hash : Bytes → Bytes) (bytes : Bytes) : Prop :=
  headerLen + objectChecksumLen ≤ bytes.length ∧
    hash ((bytes.take (bytes.length - objectChecksumLen)).drop headerLen) =
      bytes.drop (bytes.length - objectChecksumLen)

theorem toLeBytes_fromLeBytes {bytes : Bytes} (h : bytes.length = 4) :
    toLeBytes (fromLeBytes bytes) = bytes := by
  obtain ⟨a, b, c, d, rfl⟩ := List.length_eq_four.1 h
  have ha := a.toNat_lt
  have hb := b.toNat_lt
  have hc := c.toNat_lt
  have hd := d.toNat_lt
  simp only [fromLeBytes, toLeBytes, UInt32.toNat_ofNat', List.cons.injEq, and_true,
    ← UInt8.toNat_inj, UInt8.toNat_ofNat']
  omega

variable {hash : Bytes → Bytes} {codec : Bincode α} {magic bytes : Bytes} {version : UInt32}
variable {value : α} {e : IoError}

theorem decodeVersion_eq_ok (h : decodeVersion hash codec magic version bytes = .ok value) :
    Sealed hash bytes ∧ bytes.take headerLen = magic ++ toLeBytes version := by
  simp only [decodeVersion] at h
  split at h
  · cases h
  split at h
  · cases h
  split at h
  · cases h
  split at h
  · cases h
  next hlen hmagic hversion hsum =>
    have hlen := Nat.le_of_not_lt hlen
    refine ⟨⟨hlen, not_not.1 hsum⟩, ?_⟩
    have hfour : ((bytes.drop 4).take 4).length = 4 := by
      rw [List.length_take, List.length_drop]
      simp only [headerLen, objectChecksumLen] at hlen
      omega
    calc bytes.take headerLen
      _ = bytes.take 4 ++ (bytes.drop 4).take 4 := by rw [← List.take_add]; rfl
      _ = magic ++ toLeBytes version := by
        rw [not_not.1 hmagic, ← not_not.1 hversion, toLeBytes_fromLeBytes hfour]

theorem kind_decodeVersion (h : decodeVersion hash codec magic version bytes = .error e) :
    e.kind = .invalidData := by
  simp only [decodeVersion] at h
  repeat' split at h
  all_goals cases h
  all_goals rfl

theorem encodeVersion_eq_ok (hm : magic.length = 4)
    (h : encodeVersion hash codec magic value version = .ok bytes) :
    bytes.take headerLen = magic ++ toLeBytes version ∧ headerLen ≤ bytes.length := by
  unfold encodeVersion at h
  cases hs : codec.serialize value with
  | none => rw [hs] at h; cases h
  | some body =>
    rw [hs] at h
    cases h
    have hlen : headerLen = (magic ++ toLeBytes version).length := by
      rw [List.length_append, hm]
      rfl
    rw [List.append_assoc, hlen]
    exact ⟨List.take_left, by simp only [List.length_append]; omega⟩

/-- Bytes whose header has been replaced are accepted only if it was put back. -/
theorem eq_of_decodeVersion {header : Bytes} {value' : β} {codec' : Bincode β}
    (hm : magic.length = 4) (hh : header.length = headerLen)
    (he : encodeVersion hash codec magic value version = .ok bytes)
    (h : decodeVersion hash codec' magic version (header ++ bytes.drop headerLen) = .ok value') :
    header ++ bytes.drop headerLen = bytes := by
  have hnew := (decodeVersion_eq_ok h).2
  rw [← hh, List.take_left, ← (encodeVersion_eq_ok hm he).1] at hnew
  rw [hnew, List.take_append_drop]

def Disk.Refers (C : Codec K V P T) (d : Disk) (name : FileName) : Prop :=
  ∃ m, ManifestAt C d (some m) ∧ m.Refers name

/-- What can stand in the place of a segment: nothing, any segment of the store under any header,
or bytes that do not carry the hash of their body. -/
inductive Tampered (C : Codec K V P T) (d : Disk) : Option File → Prop where
  | deleted : Tampered C d none
  | copied (name : FileName) (file : File) (header : Bytes) (synced : Bool)
      (hn : d.Refers C name) (hf : d name = some file) (hh : header.length = headerLen) :
      Tampered C d (some ⟨header ++ file.bytes.drop headerLen, synced⟩)
  | broken (bytes : Bytes) (synced : Bool) (hs : ¬Sealed C.hash bytes) :
      Tampered C d (some ⟨bytes, synced⟩)

structure Damaged (C : Codec K V P T) (d d' : Disk) : Prop where
  segments : ∀ name, d.Refers C name → Tampered C d (d' name)
  frame : ∀ name, ¬d.Refers C name → d' name = d name

variable {C : Codec K V P T} {d d' : Disk} {m : Manifest} {synced : Bool} {n : Nat}

theorem ObjectAt.length_header {name : FileName} {file : File} {header : Bytes}
    (h : ObjectAt C codec magic d name value n) (hm : magic.length = 4) (hf : d name = some file)
    (hh : header.length = headerLen) : (header ++ file.bytes.drop headerLen).length = n := by
  obtain ⟨bytes, hb, he, hn⟩ := h
  rw [hf] at hb
  cases hb
  have hle := (encodeVersion_eq_ok hm he).2
  rw [List.length_append, List.length_drop, hh, ← hn]
  simp only
  omega

theorem Held.refers {name : FileName} (h : Held C d m) (hn : d.Refers C name) : m.Refers name := by
  obtain ⟨m', hm', hr⟩ := hn
  cases h.manifestAt.unique hm'
  exact hr

theorem Held.base_eq (h : Held C d m) (hd : Damaged C d d') {base : BaseSegment K V P T}
    (hf : d' (.segment .base m.baseGeneration) = some ⟨bytes, synced⟩)
    (hlen : bytes.length = m.baseBytes)
    (hok : decodeVersion C.hash C.base baseMagic C.version bytes = .ok base) :
    d (.segment .base m.baseGeneration) = some ⟨bytes, true⟩ := by
  have ht := hd.segments (.segment .base m.baseGeneration) ⟨m, h.manifestAt, rfl⟩
  rw [hf] at ht
  cases ht with
  | broken _ _ hs => exact absurd (decodeVersion_eq_ok hok).1 hs
  | copied name file header _ hn hfile hh =>
    cases name with
    | segment kind i =>
      have hr := h.refers hn
      cases kind with
      | base =>
        cases hr
        obtain ⟨state, n, ho, _⟩ := h.base
        obtain ⟨bytes, hb, he, _⟩ := ho
        rw [hfile] at hb
        cases hb
        rw [eq_of_decodeVersion rfl hh he hok]
        exact hfile
      | delta =>
        obtain ⟨origin, delta, n, ho, hn⟩ := h.deltas i hr.1 hr.2
        have := ho.length_header rfl hfile hh
        omega
    | manifest => exact (h.refers hn).elim
    | snapshot => exact (h.refers hn).elim
    | tmp path => exact (h.refers hn).elim

/-- A delta that passes its checks is the one that was saved, or the base under its header. -/
theorem Held.delta_eq (h : Held C d m) (hd : Damaged C d d') {i : Nat}
    {segment : DeltaSegment K V P T} (hi : m.baseGeneration < i) (hi' : i ≤ m.currentGeneration)
    (hf : d' (.segment .delta i) = some ⟨bytes, synced⟩)
    (hok : decodeVersion C.hash C.delta deltaMagic C.version bytes = .ok segment)
    (hto : segment.toGeneration = i) :
    d (.segment .delta i) = some ⟨bytes, true⟩ ∨ bytes.length = m.baseBytes := by
  have ht := hd.segments (.segment .delta i) ⟨m, h.manifestAt, hi, hi'⟩
  rw [hf] at ht
  cases ht with
  | broken _ _ hs => exact absurd (decodeVersion_eq_ok hok).1 hs
  | copied name file header _ hn hfile hh =>
    cases name with
    | segment kind j =>
      have hr := h.refers hn
      cases kind with
      | base =>
        cases hr
        obtain ⟨state, n, ho, hn⟩ := h.base
        right
        rw [ho.length_header rfl hfile hh]
        exact hn (Nat.ne_of_lt (Nat.lt_of_lt_of_le hi (hi'.trans h.bounded)))
      | delta =>
        obtain ⟨origin, delta, n, ho, _⟩ := h.deltas j hr.1 hr.2
        obtain ⟨bytes, hb, he, _⟩ := ho
        rw [hfile] at hb
        cases hb
        have heq := eq_of_decodeVersion rfl hh he hok
        rw [heq] at hok ⊢
        rw [decodeVersion_encodeVersion rfl C.hash_length he] at hok
        cases hok
        cases hto
        exact .inl hfile
    | manifest => exact (h.refers hn).elim
    | snapshot => exact (h.refers hn).elim
    | tmp path => exact (h.refers hn).elim

/-- Without faults of the system, the operation fails with `InvalidData` only. -/
def Fs.FailsClosed (x : Fs α) : Prop :=
  ∀ d e, (x.quiet d).1 = .error e → e.kind = .invalidData

namespace Fs.FailsClosed

theorem ok (a : α) : Fs.FailsClosed (pure a) := nofun

theorem error (h : e.kind = .invalidData) : Fs.FailsClosed (throw e : Fs α) := by
  intro d e' he
  cases he
  exact h

theorem ofExcept {r : Except IoError α} (h : ∀ e, r = .error e → e.kind = .invalidData) :
    Fs.FailsClosed (Fs.ofExcept r) := by
  cases r with
  | ok a => exact ok a
  | error e => exact error (h e rfl)

theorem bind {x : Fs α} {f : α → Fs β} (hx : Fs.FailsClosed x) (hf : ∀ a, Fs.FailsClosed (f a)) :
    Fs.FailsClosed (x >>= f) := by
  intro d e he
  rw [Fs.quiet_bind] at he
  cases hq : x.quiet d with
  | mk r d' =>
    rw [hq] at he
    cases r with
    | ok a => exact hf a d' e he
    | error e' =>
      refine hx d e ?_
      rw [hq]
      exact congrArg Except.error (Except.error.inj he)

theorem check {p : Prop} [Decidable p] {x : Fs α} (he : e.kind = .invalidData)
    (hx : Fs.FailsClosed x) : Fs.FailsClosed (if p then throw e else x) := by
  split
  · exact error he
  · exact hx

theorem read {name : FileName} {f : Except IoError Bytes → Fs β}
    (hok : ∀ bytes, Fs.FailsClosed (f (.ok bytes))) (hnone : Fs.FailsClosed (f (.error .notFound))) :
    Fs.FailsClosed ((Fs.read name).attempt >>= f) := by
  intro d e he
  rw [Fs.quiet_bind, Fs.quiet_attempt, Fs.quiet_read] at he
  cases hd : d name with
  | none =>
    rw [hd] at he
    exact hnone d e he
  | some file =>
    rw [hd] at he
    exact hok file.bytes d e he

end Fs.FailsClosed

theorem kind_validateManifest (h : validateManifest m = .error e) : e.kind = .invalidData := by
  unfold validateManifest at h
  repeat' split at h
  all_goals cases h
  all_goals rfl

theorem kind_decodeManifest (h : decodeManifest C bytes = .error e) : e.kind = .invalidData := by
  unfold decodeManifest at h
  cases hd : decodeVersion C.hash C.manifest manifestMagic C.version bytes with
  | error e' =>
    rw [hd] at h
    cases h
    exact kind_decodeVersion hd
  | ok m =>
    rw [hd] at h
    cases hv : validateManifest m with
    | error e' =>
      simp only [bind, Except.bind, hv] at h
      cases h
      exact kind_validateManifest hv
    | ok _ =>
      simp only [bind, Except.bind, hv] at h
      cases h

theorem kind_decodeSnapshotFor (h : decodeSnapshotFor C bytes = .error e) :
    e.kind = .invalidData := by
  simp only [decodeSnapshotFor] at h
  repeat' split at h
  all_goals cases h
  all_goals rfl

theorem failsClosed_readManifestVersion : Fs.FailsClosed (readManifestVersion C) :=
  .read (fun _ => .bind (.ofExcept fun _ => kind_decodeManifest) fun _ => .ok _) (.ok _)

theorem failsClosed_loadSnapshot : Fs.FailsClosed (loadSnapshot C) :=
  .read (fun _ => .bind (.ofExcept fun _ => kind_decodeSnapshotFor) fun _ => .ok _) (.ok _)

theorem failsClosed_readSegmentBytes (kind : SegmentKind) (i : Nat) (expected : Option Nat) :
    Fs.FailsClosed (readSegmentBytes kind i expected) := by
  refine .read (fun bytes => ?_) (.error rfl)
  cases expected with
  | none => exact .ok _
  | some n => exact .check rfl (.ok _)

theorem Fs.quiet_bind_ok {x : Fs α} {f : α → Fs β} {b : β} : ((x >>= f).quiet d).1 = .ok b ↔
    ∃ a, (x.quiet d).1 = .ok a ∧ ((f a).quiet (x.quiet d).2).1 = .ok b := by
  rw [Fs.quiet_bind]
  rcases x.quiet d with ⟨e | a, d'⟩
  · simp
  · simp

theorem Fs.quiet_check_ok {p : Prop} [Decidable p] {x : Fs α} {a : α} :
    ((if p then throw e else x : Fs α).quiet d).1 = .ok a ↔ ¬p ∧ (x.quiet d).1 = .ok a := by
  split
  · next hp => simp [hp, Fs.quiet_throw]
  · next hp => simp [hp]

theorem quiet_readSegment_disk (kind : SegmentKind) (i : Nat) (expected : Option Nat) (d : Disk) :
    ((readSegmentBytes kind i expected).quiet d).2 = d := by
  simp only [readSegmentBytes, Fs.quiet_bind, Fs.quiet_attempt, Fs.quiet_read]
  cases d (.segment kind i) with
  | none => rfl
  | some f =>
    cases expected with
    | none => rfl
    | some n =>
      simp only
      split <;> rfl

theorem quiet_readSegment_ok {kind : SegmentKind} {i : Nat} {expected : Option Nat} :
    ((readSegmentBytes kind i expected).quiet d).1 = .ok bytes ↔
      (∃ synced, d (.segment kind i) = some ⟨bytes, synced⟩) ∧
        ∀ n, expected = some n → bytes.length = n := by
  simp only [readSegmentBytes, Fs.quiet_bind, Fs.quiet_attempt, Fs.quiet_read]
  cases hd : d (.segment kind i) with
  | none => simp [IoError.kind, Fs.quiet_throw]
  | some f =>
    obtain ⟨bytes', synced⟩ := f
    cases expected with
    | none => simp
    | some n =>
      simp only [Fs.quiet_check_ok, Fs.quiet_pure, Except.ok.injEq, not_not, Option.some.injEq,
        File.mk.injEq, forall_eq']
      grind

variable [LinearOrder K] [DecidableEq P]

theorem recoverDeltas_cons_ok {i : Nat} {generations : List Nat} {state : CausalState K V P T}
    {observed : Nat} {result : CausalState K V P T × Nat} :
    ((recoverDeltas C (i :: generations) state observed).quiet d).1 = .ok result ↔
      ∃ bytes synced segment, d (.segment .delta i) = some ⟨bytes, synced⟩ ∧
        decodeVersion C.hash C.delta deltaMagic C.version bytes = .ok segment ∧
        segment.fromGeneration = i - 1 ∧ segment.toGeneration = i ∧
        ((recoverDeltas C generations (applyDelta state segment.delta)
          (saturatingAdd observed bytes.length)).quiet d).1 = .ok result := by
  simp only [recoverDeltas, Fs.quiet_bind_ok, quiet_readSegment_ok, quiet_readSegment_disk,
    Fs.quiet_ofExcept, Fs.quiet_check_ok, not_or, not_not]
  constructor
  · rintro ⟨bytes, ⟨⟨synced, hf⟩, _⟩, segment, hdec, ⟨hfrom, hto⟩, hrest⟩
    exact ⟨bytes, synced, segment, hf, hdec, hfrom, hto, hrest⟩
  · rintro ⟨bytes, synced, segment, hf, hdec, hfrom, hto, hrest⟩
    exact ⟨bytes, ⟨⟨synced, hf⟩, by rintro _ ⟨⟩⟩, segment, hdec, ⟨hfrom, hto⟩, hrest⟩

theorem le_of_recoverDeltas {generations : List Nat} {state : CausalState K V P T}
    {observed k : Nat} {result : CausalState K V P T × Nat} (hk : k ≤ observed) (hw : k ≤ u64Max)
    (h : ((recoverDeltas C generations state observed).quiet d).1 = .ok result) :
    k ≤ result.2 := by
  induction generations generalizing state observed with
  | nil =>
    cases h
    exact hk
  | cons i generations ih =>
    obtain ⟨bytes, _, segment, _, _, _, _, h⟩ := recoverDeltas_cons_ok.1 h
    refine ih ?_ h
    rw [saturatingAdd]
    omega

/-- Deltas that are recovered from a damaged store are those that were saved, or too many bytes. -/
theorem Held.recoverDeltas_eq (h : Held C d m) (hd : Damaged C d d') (hw : m.baseBytes ≤ u64Max)
    {generations : List Nat} {state : CausalState K V P T} {observed : Nat}
    {result : CausalState K V P T × Nat}
    (hg : ∀ i ∈ generations, m.baseGeneration < i ∧ i ≤ m.currentGeneration)
    (hok : ((recoverDeltas C generations state observed).quiet d').1 = .ok result) :
    m.baseBytes ≤ result.2 ∨
      ((recoverDeltas C generations state observed).quiet d).1 = .ok result := by
  induction generations generalizing state observed with
  | nil => exact .inr hok
  | cons i generations ih =>
    obtain ⟨bytes, synced, segment, hf, hdec, hfrom, hto, hrest⟩ := recoverDeltas_cons_ok.1 hok
    obtain ⟨hi, hi'⟩ := hg i List.mem_cons_self
    rcases h.delta_eq hd hi hi' hf hdec hto with hsame | hbig
    · rcases ih (fun j hj => hg j (List.mem_cons_of_mem i hj)) hrest with hlarge | hrest
      · exact .inl hlarge
      · exact .inr (recoverDeltas_cons_ok.2 ⟨bytes, true, segment, hsame, hdec, hfrom, hto, hrest⟩)
    · refine .inl (le_of_recoverDeltas ?_ hw hrest)
      rw [saturatingAdd]
      omega

theorem recoverManifest_ok {s : PersistedState K V P T} :
    ((recoverManifest C m).quiet d).1 = .ok s ↔
      ∃ bytes synced base, d (.segment .base m.baseGeneration) = some ⟨bytes, synced⟩ ∧
        bytes.length = m.baseBytes ∧
        decodeVersion C.hash C.base baseMagic C.version bytes = .ok base ∧
        base.generation = m.baseGeneration ∧
        ((m.currentGeneration = m.baseGeneration ∧ s = base.state) ∨
          (m.currentGeneration ≠ m.baseGeneration ∧ ∃ state,
            ((recoverDeltas C (List.range' (saturatingAdd m.baseGeneration 1)
              (m.currentGeneration + 1 - saturatingAdd m.baseGeneration 1))
              base.state.toCausal 0).quiet d).1 = .ok (state, m.deltaBytes) ∧
            s = state.toPersisted)) := by
  simp only [recoverManifest, Fs.quiet_bind_ok, quiet_readSegment_ok, quiet_readSegment_disk,
    Fs.quiet_ofExcept, Fs.quiet_check_ok, not_not]
  constructor
  · rintro ⟨bytes, ⟨⟨synced, hf⟩, hlen⟩, base, hdec, hgen, hrest⟩
    refine ⟨bytes, synced, base, hf, hlen _ rfl, hdec, hgen, ?_⟩
    split at hrest
    · next hc => exact .inl ⟨hc, (Except.ok.inj hrest).symm⟩
    · next hc =>
      obtain ⟨⟨state, observed⟩, hr, hrest⟩ := Fs.quiet_bind_ok.1 hrest
      obtain ⟨hobs, hs⟩ := Fs.quiet_check_ok.1 hrest
      cases not_not.1 hobs
      exact .inr ⟨hc, state, hr, (Except.ok.inj hs).symm⟩
  · rintro ⟨bytes, synced, base, hf, hlen, hdec, hgen, hrest⟩
    refine ⟨bytes, ⟨⟨synced, hf⟩, fun _ hn => Option.some.inj hn ▸ hlen⟩, base, hdec, hgen, ?_⟩
    rcases hrest with ⟨hc, rfl⟩ | ⟨hc, state, hr, rfl⟩
    · rw [if_pos hc, Fs.quiet_pure]
    · rw [if_neg hc, Fs.quiet_bind_ok]
      exact ⟨_, hr, Fs.quiet_check_ok.2 ⟨not_not.2 rfl, rfl⟩⟩

/-- What is loaded from the damaged files of a manifest is what was saved. -/
theorem Held.recoverManifest_eq (h : Held C d m) (hd : Damaged C d d') (hw : m.baseBytes ≤ u64Max)
    {s : PersistedState K V P T} (hok : ((recoverManifest C m).quiet d').1 = .ok s) :
    ((recoverManifest C m).quiet d).1 = .ok s := by
  obtain ⟨bytes, synced, base, hf, hlen, hdec, hgen, hrest⟩ := recoverManifest_ok.1 hok
  have hsame := h.base_eq hd hf hlen hdec
  refine recoverManifest_ok.2 ⟨bytes, true, base, hsame, hlen, hdec, hgen, ?_⟩
  rcases hrest with hnone | ⟨hc, state, hr, hs⟩
  · exact .inl hnone
  · have hlt : m.baseGeneration < m.currentGeneration := Nat.lt_of_le_of_ne h.le (Ne.symm hc)
    refine .inr ⟨hc, state, ?_, hs⟩
    have hfirst : saturatingAdd m.baseGeneration 1 = m.baseGeneration + 1 :=
      saturatingAdd_one (Nat.lt_of_lt_of_le hlt h.bounded)
    have hrange : ∀ i ∈ List.range' (saturatingAdd m.baseGeneration 1)
        (m.currentGeneration + 1 - saturatingAdd m.baseGeneration 1),
        m.baseGeneration < i ∧ i ≤ m.currentGeneration := by
      intro i hi
      rw [hfirst, List.mem_range'_1] at hi
      omega
    rcases h.recoverDeltas_eq hd hw hrange hr with hlarge | hr
    · -- the base under the header of a delta: more bytes than the manifest records
      have hbytes := h.within.bytes (Nat.sub_ne_zero_of_lt hlt)
      exact absurd hlarge (Nat.not_le.2 hbytes)
    · exact hr

theorem load_ok_of_manifestAt (h : ManifestAt C d (some m))
    {s : Option (PersistedState K V P T)} : ((load C).quiet d).1 = .ok s ↔
      ∃ state, ((recoverManifest C m).quiet d).1 = .ok state ∧ s = some state := by
  simp only [load, loadFor, Fs.quiet_bind, quiet_readManifestVersion h]
  rcases (recoverManifest C m).quiet d with ⟨e | state, d'⟩
  · simp
  · simp [eq_comm]

theorem Intact.load_eq (hC : C.Words) (h : Intact C d) (hd : Damaged C d d')
    {s : Option (PersistedState K V P T)} (hok : ((load C).quiet d').1 = .ok s) :
    ((load C).quiet d).1 = .ok s := by
  obtain ⟨r, hr⟩ := h
  cases r with
  | none =>
    have hnone : d .manifest = none := hr
    have hall : d' = d := by
      funext name
      refine hd.frame name ?_
      rintro ⟨m, ⟨bytes, hf, _⟩, _⟩
      rw [hnone] at hf
      cases hf
    exact hall ▸ hok
  | some m =>
    have hheld : Held C d m := hr
    have hman : d' .manifest = d .manifest := hd.frame .manifest fun ⟨_, _, hn⟩ => hn
    have hm' : ManifestAt C d' (some m) := by
      obtain ⟨bytes, hf, hdec⟩ := hheld.manifestAt
      exact ⟨bytes, hman.trans hf, hdec⟩
    obtain ⟨state, hr, hs⟩ := (load_ok_of_manifestAt hm').1 hok
    have hsame := hheld.recoverManifest_eq hd (hheld.baseBytes_le hC) hr
    exact (load_ok_of_manifestAt hheld.manifestAt).2 ⟨state, hsame, hs⟩

theorem failsClosed_recoverDeltas (generations : List Nat) (state : CausalState K V P T)
    (observed : Nat) : Fs.FailsClosed (recoverDeltas C generations state observed) := by
  induction generations generalizing state observed with
  | nil => exact .ok _
  | cons i generations ih =>
    exact .bind (failsClosed_readSegmentBytes .delta i none) fun bytes =>
      .bind (.ofExcept fun _ => kind_decodeVersion) fun segment => .check rfl (ih _ _)

theorem failsClosed_recoverManifest : Fs.FailsClosed (recoverManifest C m) := by
  refine .bind (failsClosed_readSegmentBytes .base _ _) fun bytes =>
    .bind (.ofExcept fun _ => kind_decodeVersion) fun base => .check rfl ?_
  split
  · exact .ok _
  · exact .bind (failsClosed_recoverDeltas _ _ _) fun _ => .check rfl (.ok _)

theorem failsClosed_load : Fs.FailsClosed (load C) := by
  refine .bind (.bind failsClosed_readManifestVersion ?_) ?_
  · intro r
    cases r with
    | none => exact .ok _
    | some m => exact .bind failsClosed_recoverManifest fun _ => .ok _
  · intro r
    cases r with
    | none => exact failsClosed_loadSnapshot
    | some s => exact .ok _

omit [LinearOrder K] [DecidableEq P] in
theorem Held.exists_file {name : FileName} (h : Held C d m) (hn : m.Refers name) :
    ∃ bytes, d name = some ⟨bytes, true⟩ ∧ headerLen ≤ bytes.length := by
  cases name with
  | segment kind i =>
    cases kind with
    | base =>
      cases hn
      obtain ⟨_, _, ⟨bytes, hf, he, _⟩, _⟩ := h.base
      exact ⟨bytes, hf, (encodeVersion_eq_ok rfl he).2⟩
    | delta =>
      obtain ⟨_, _, _, ⟨bytes, hf, he, _⟩, _⟩ := h.deltas i hn.1 hn.2
      exact ⟨bytes, hf, (encodeVersion_eq_ok rfl he).2⟩
  | manifest => exact hn.elim
  | snapshot => exact hn.elim
  | tmp path => exact hn.elim

omit [LinearOrder K] [DecidableEq P] in
theorem Held.tampered {name : FileName} (h : Held C d m) (hn : m.Refers name) :
    Tampered C d (d name) := by
  obtain ⟨bytes, hf, hlen⟩ := h.exists_file hn
  have hcopy := Tampered.copied name _ (bytes.take headerLen) true ⟨m, h.manifestAt, hn⟩ hf
    (List.length_take_of_le hlen)
  rw [List.take_append_drop] at hcopy
  rw [hf]
  exact hcopy

omit [LinearOrder K] [DecidableEq P] in
theorem Held.damaged_copy (h : Held C d m) (source target : FileName) (hs : m.Refers source)
    (ht : m.Refers target) : Damaged C d (Function.update d target (d source)) where
  segments name hn := by
    by_cases heq : name = target
    · rw [heq, Function.update_self]
      exact h.tampered hs
    · rw [Function.update_of_ne heq]
      exact h.tampered (h.refers hn)
  frame name hn := by
    refine Function.update_of_ne ?_ _ _
    rintro rfl
    exact hn ⟨m, h.manifestAt, ht⟩

def savedTwice : List (Call Nat Nat Nat Nat) :=
  [⟨.full Exhaustion.large, List.replicate 20 (.succeed []), fun _ => none, false⟩,
    ⟨.delta (some ⟨∅, ∅, ∅, ∅⟩), List.replicate 20 (.succeed []), fun _ => none, false⟩]

def savedDisk : Disk := Call.runAll (u64Codec formatVersion) (fun _ => none) savedTwice

theorem held_savedDisk : Held (u64Codec formatVersion) savedDisk ⟨1, 100, 2, 88⟩ := by
  have hread : (savedDisk .manifest).bind
      (fun f => (decodeManifest (u64Codec formatVersion) f.bytes).toOption) =
        some ⟨1, 100, 2, 88⟩ := by decide +kernel
  have hempty : Intact (u64Codec formatVersion) fun _ => none := ⟨none, rfl⟩
  obtain ⟨r, hr⟩ := hempty.runAll (u64Codec_words formatVersion) savedTwice
  obtain ⟨f, hf, hdec⟩ := Option.bind_eq_some_iff.1 hread
  cases r with
  | none =>
    have hnone : savedDisk .manifest = none := hr
    rw [hnone] at hf
    cases hf
  | some m =>
    obtain ⟨bytes, hb, hm⟩ := hr.manifestAt
    cases hb.symm.trans hf
    rw [hm] at hdec
    cases hdec
    exact hr

def copiedBase : Disk := Function.update savedDisk (.segment .delta 2) (savedDisk (.segment .base 1))

/-- Whatever number of saves made the store, with whatever faults and crashes: a store whose
segments have been tampered with loads as it did before, or fails with `InvalidData`. Fewer than
`2 ^ 64` saves leave it to load as what they have committed. -/
theorem damaged_store_fails_closed (C : Codec K V P T) (hC : C.Words) (d : Disk)
    (hm : d .manifest = none) (calls : List (Call K V P T)) (d' : Disk)
    (hd : Damaged C (Call.runAll C d calls) d') :
    ((∃ e, ((load C).quiet d').1 = .error e ∧ e.kind = .invalidData) ∨
      ∃ s, ((load C).quiet d').1 = .ok s ∧ ((load C).quiet (Call.runAll C d calls)).1 = .ok s) ∧
    ∀ legacy, LegacyAt C d legacy → calls.length < 2 ^ 64 →
      ∃ A, Commits C d (.bare legacy) calls A ∧
        ((load C).quiet (Call.runAll C d calls)).1 = .ok A.loaded := by
  constructor
  · have hempty : Intact C d := ⟨none, hm⟩
    cases hl : ((load C).quiet d').1 with
    | error e => exact .inl ⟨e, rfl, failsClosed_load d' e hl⟩
    | ok s => exact .inr ⟨s, rfl, (hempty.runAll hC calls).load_eq hC hd hl⟩
  · intro legacy hlegacy hlen
    have hstart : StoreAt C d (.bare legacy) 0 := ⟨hm, hlegacy, rfl⟩
    obtain ⟨A, hA, g, hend⟩ := hstart.commits calls (by unfold u64Max; omega)
    exact ⟨A, hA, congrArg Prod.fst hend.load⟩

theorem damaged_store_fails_closed_copiedBase :
    (∃ e, ((load (u64Codec formatVersion)).quiet copiedBase).1 = .error e ∧
        e.kind = .invalidData) ∨
      ∃ s, ((load (u64Codec formatVersion)).quiet copiedBase).1 = .ok s ∧
        ((load (u64Codec formatVersion)).quiet savedDisk).1 = .ok s :=
  (damaged_store_fails_closed (u64Codec formatVersion) (u64Codec_words formatVersion)
    (fun _ => none) rfl savedTwice copiedBase
    (held_savedDisk.damaged_copy (.segment .base 1) (.segment .delta 2) rfl
      ⟨by decide, by decide⟩)).1

end Reconcile
