import Reconcile.Lib.Transition
import Reconcile.SignedCausal

namespace Reconcile
open Lib
set_option autoImplicit true

variable {K V P : Type} [LinearOrder K] [DecidableEq P]

def Advances [LinearOrder T] (m m' : HashMap K (Entry T V)) : Prop :=
  ∀ k e, m.lookup k = some e → ∃ e', m'.lookup k = some e' ∧ e.stamp ≤ e'.stamp

namespace Advances

variable [LinearOrder T] {m m' m'' : HashMap K (Entry T V)}

theorem refl (m : HashMap K (Entry T V)) : Advances m m := fun _ e h => ⟨e, h, le_rfl⟩

theorem trans (h : Advances m m') (h' : Advances m' m'') : Advances m m'' := by
  intro k e he
  obtain ⟨e₁, he₁, hle₁⟩ := h k e he
  obtain ⟨e₂, he₂, hle₂⟩ := h' k e₁ he₁
  exact ⟨e₂, he₂, hle₁.trans hle₂⟩

theorem insert {key : K} {entry : Entry T V}
    (h : ∀ e, m.lookup key = some e → e.stamp ≤ entry.stamp) : Advances m (m.insert key entry) := by
  intro k e he
  rw [HashMap.lookup_insert_eq]
  split
  · next hk =>
    subst hk
    exact ⟨entry, rfl, h e he⟩
  · exact ⟨e, he, le_rfl⟩

end Advances

namespace SignedReplica

theorem entries_mutate_ack (s : CausalState K V P T) (key : K) (peer : P) (version : Option Nat) :
    (s.mutate (.ack key peer version)).entries = s.entries := by
  cases version with
  | some v => rfl
  | none =>
    rw [CausalState.mutate]
    split <;> rfl

theorem entries_recordEntry (s : SignedReplica K V P T) (key : K) (entry : Entry T V) :
    (s.recordEntry key entry).entries = s.entries.insert key entry := by
  rw [recordEntry, clearAcks]
  split <;> rfl

theorem entries_decommission (s : SignedReplica K V P T) (peer : P) :
    (s.decommission peer).2.entries = s.entries := by
  have hacks (keys : List K) (c : CausalState K V P T) :
      (c.transact (keys.map fun key => .ack key peer none)).entries = c.entries := by
    induction keys generalizing c with
    | nil => rfl
    | cons key keys ih => exact (ih _).trans (entries_mutate_ack c key peer none)
  simp only [decommission, transact, CausalState.transact, List.foldl_append]
  refine (hacks _ _).trans ?_
  split <;> rfl

variable [LinearOrder T] (R : Rsos T V)

theorem entries_acceptAck (s : SignedReplica K V P T) (peer : P) (key : K) (version : Nat) :
    (s.acceptAck R peer key version).entries = s.entries := by
  rw [acceptAck]
  split
  · split
    · split
      · split
        · rfl
        · exact entries_mutate_ack s.toCausalState key peer (some version)
      · rfl
    · rfl
  · rfl

theorem entries_handleVerifiedMessage (s : SignedReplica K V P T) (peer : P)
    (m : SignedMessage K V T) :
    (s.handleVerifiedMessage R peer m).2.entries = s.entries ∨
      ∃ key entry, m = .update key entry ∧ s.authorities.contains peer = true ∧
        (s.handleVerifiedMessage R peer m).2.entries =
          s.entries.insert key (s.mergedEntry R key entry) := by
  cases m with
  | hello => exact .inl rfl
  | ack key version => exact .inl (s.entries_acceptAck R peer key version)
  | update key entry =>
    rw [handleVerifiedMessage]
    split
    · next hp =>
      simp only [applyRemoteEntry, if_pos hp]
      split
      · exact .inr ⟨key, entry, rfl, hp, entries_recordEntry s key _⟩
      · exact .inl rfl
    · exact .inl rfl

variable {R} {s : SignedReplica K V P T}

omit [DecidableEq P] in
theorem le_mergedEntry {e : Entry T V} (h : s.entries.lookup key = some e) (remote : Entry T V) :
    e.stamp ≤ (s.mergedEntry R key remote).stamp := by
  rw [mergedEntry, h]
  exact R.left_le_merge e remote

omit [DecidableEq P] in
theorem mergedEntry_of_lt {e remote : Entry T V} (h : s.entries.lookup key = some e)
    (hlt : remote.stamp < e.stamp) : s.mergedEntry R key remote = e := by
  rw [mergedEntry, h]
  exact R.merge_of_gt e remote hlt

omit [DecidableEq P] in
theorem mergedEntry_eq_or (s : SignedReplica K V P T) (key : K) (remote : Entry T V) :
    s.entries.lookup key = some (s.mergedEntry R key remote) ∨
      s.mergedEntry R key remote = remote := by
  rw [mergedEntry]
  split
  · next e he =>
    rcases R.merge_eq_or e remote with h | h
    · rw [h]
      exact .inl he
    · exact .inr h
  · exact .inr rfl

theorem lookup_redelivered {e remote : Entry T V} (h : s.entries.lookup key = some e)
    (hlt : remote.stamp < e.stamp) (peer : P) :
    (s.handleVerifiedMessage R peer (.update key remote)).2.entries.lookup key = some e := by
  rcases s.entries_handleVerifiedMessage R peer (.update key remote) with he | ⟨k, en, hm, _, he⟩
  · rw [he]
    exact h
  · cases hm
    rw [he, mergedEntry_of_lt h hlt]
    exact AList.lookup_insert _

end SignedReplica

namespace SignedCausal

/-- The clock has reached the reading of every entry held. -/
def Covers (s : SignedCausal K V P) : Prop :=
  ∀ k e, s.entries.lookup k = some e → e.stamp.hlc ≤ s.clock.last

/-- The clock is not at its last reading when it dates a local write, and it can pass an update taken
from an authority, which leads the wall clock by no more than the drift budget. -/
def inBudget (s : SignedCausal K V P) : CausalEvent K V P → Bool
  | .write _ _ => s.clock.last != Hlc.top
  | .message peer (.update _ entry) pt =>
    !s.authorities.contains peer ||
      decide (entry.stamp.hlc.physical ≤ saturatingAddMs pt s.clock.maxClockDrift) &&
        s.clock.passes entry.stamp.hlc
  | _ => true

def passes (s : SignedCausal K V P) : CausalEvent K V P → Bool
  | .message peer (.update _ entry) pt =>
    !s.authorities.contains peer || s.clock.passes (s.clock.admitted entry.stamp pt)
  | _ => true

variable {H : HlcArithmetic} {R : Rsos Timestamp V}
  {fits : K → Entry Timestamp V → Except SignedError Unit} {s s' : SignedCausal K V P}

omit [DecidableEq P] in
/-- An entry that a later reading has reached may be written over the others. -/
theorem reached_insert {entries : HashMap K (Entry Timestamp V)} {entry : Entry Timestamp V}
    {last last' : Hlc} (h : ∀ k e, entries.lookup k = some e → e.stamp.hlc ≤ last)
    (hle : last ≤ last') (he : entry.stamp.hlc ≤ last') :
    ∀ k e, (entries.insert key entry).lookup k = some e → e.stamp.hlc ≤ last' := by
  intro k e hk
  rw [HashMap.lookup_insert_eq] at hk
  split at hk
  · cases hk
    exact he
  · exact (h k e hk).trans hle

theorem loadEntries_covers (hH : H.Lawful) {saved : List (K × Entry Timestamp V)}
    {entries kept : HashMap K _} {clock clock' : HlcClock}
    (h : loadEntries H readings i clock entries saved = .ok (kept, clock'))
    (hp : loadPasses H readings i clock saved = true)
    (hc : ∀ k e, entries.lookup k = some e → e.stamp.hlc ≤ clock.last) :
    ∀ k e, kept.lookup k = some e → e.stamp.hlc ≤ clock'.last := by
  induction saved generalizing i clock entries with
  | nil =>
    cases h
    exact hc
  | cons ke saved ih =>
    obtain ⟨key, entry⟩ := ke
    rw [loadPasses, Bool.and_eq_true] at hp
    rw [loadEntries] at h
    split at h
    · cases h
    · exact ih h hp.2 (reached_insert hc (HlcClock.last_le_observeTrusted hH hp.1 _)
        (HlcClock.remote_le_observeTrusted hH hp.1 _))

theorem covers_restore (hH : H.Lawful) {roles : SignedRoles P}
    (h : restore H roles c readings loaded = .ok s)
    (hp : ∀ saved, loaded = some saved → loadPasses H readings 0 c saved.entries = true) :
    s.Covers := by
  obtain ⟨entries, clock', hl, _, _, rfl⟩ := restore_eq_ok h
  have hpasses : loadPasses H readings 0 c (loaded.getD ⟨[], ∅, ∅⟩).entries = true := by
    cases loaded with
    | none => rfl
    | some saved => exact hp saved rfl
  refine loadEntries_covers hH hl hpasses ?_
  intro k e he
  rw [AList.lookup_empty] at he
  cases he

omit [DecidableEq P] in
theorem Covers.lt_now (hH : H.Lawful) (h : s.Covers) (hb : s.clock.last ≠ Hlc.top)
    {e : Entry Timestamp V} (he : s.entries.lookup k = some e) (pt : PhysicalTime) :
    e.stamp < (s.clock.now H pt).1 :=
  Timestamp.lt_of_hlc_lt ((h k e he).trans_lt (HlcClock.last_lt_now hH hb pt))

/-- What a successful write stores is dated after what it replaces. -/
theorem Covers.lt_written (hH : H.Lawful) (h : s.Covers) (hb : s.clock.last ≠ Hlc.top)
    {w : LocalWrite K V}
    (hw : s.write H fits w pt = (.ok (), s')) :
    s'.entries = s.entries.insert w.key (w.entry (s.clock.now H pt).1) ∧
      ∀ old, s.entries.lookup w.key = some old → old.stamp < (s.clock.now H pt).1 := by
  rcases s.write_cases w pt with ⟨err, he⟩ | ⟨err, he⟩ | ⟨_, he⟩
  · rw [he] at hw
    cases hw
  · rw [he] at hw
    cases hw
  · rw [he] at hw
    cases hw
    exact ⟨SignedReplica.entries_recordEntry _ _ _, fun old ho => h.lt_now hH hb ho pt⟩

omit [LinearOrder K] in
theorem observed_last_le (hH : H.Lawful) {peer : P} {m : SignedMessage K V Timestamp}
    {pt : PhysicalTime} (h : s.passes (.message peer m pt) = true) :
    s.clock.last ≤ (s.observed H peer m pt).last := by
  cases m with
  | hello => exact le_rfl
  | ack key version => exact le_rfl
  | update key entry =>
    rw [observed]
    split
    · next hp =>
      rw [passes, hp, Bool.not_true, Bool.false_or] at h
      exact HlcClock.last_le_observe hH h
    · exact le_rfl

theorem last_le_step (hH : H.Lawful) {ev : CausalEvent K V P} (h : ∀ w pt, ev ≠ .write w pt)
    (hp : s.passes ev = true) : s.clock.last ≤ (s.step H fits R ev).clock.last := by
  cases ev with
  | write w pt => exact absurd rfl (h w pt)
  | message peer m pt => exact observed_last_le hH hp
  | decommission peer => exact le_rfl
  | collect key => exact le_rfl
  | journal generations => exact le_rfl

omit [LinearOrder K] in
theorem passes_of_inBudget {ev : CausalEvent K V P} (h : s.inBudget ev = true) :
    s.passes ev = true := by
  cases ev with
  | message peer m pt =>
    cases m with
    | update key entry =>
      rw [inBudget, Bool.or_eq_true, Bool.and_eq_true, decide_eq_true_eq] at h
      rw [passes, Bool.or_eq_true]
      rcases h with hp | ⟨hle, hpass⟩
      · exact .inl hp
      · right
        rwa [HlcClock.admitted_of_le hle]
    | hello => rfl
    | ack key version => rfl
  | write w pt => rfl
  | decommission peer => rfl
  | collect key => rfl
  | journal generations => rfl

theorem Covers.write (hH : H.Lawful) (h : s.Covers) (htop : s.clock.last ≠ Hlc.top)
    (w : LocalWrite K V) (pt : PhysicalTime) :
    (s.write H fits w pt).2.Covers ∧ Advances s.entries (s.write H fits w pt).2.entries := by
  have hle : s.clock.last ≤ (s.clock.now H pt).2.last := le_of_lt (HlcClock.last_lt_now hH htop pt)
  rcases s.write_cases w pt with ⟨err, he⟩ | ⟨err, he⟩ | ⟨_, he⟩
  · rw [he]
    exact ⟨h, .refl _⟩
  · rw [he]
    exact ⟨fun k e hk => (h k e hk).trans hle, .refl _⟩
  · rw [he, Covers]
    simp only [SignedReplica.entries_recordEntry]
    refine ⟨reached_insert h hle ?_, .insert fun e hk => ?_⟩
    · rw [LocalWrite.stamp_entry]
      exact le_rfl
    · rw [LocalWrite.stamp_entry]
      exact le_of_lt (h.lt_now hH htop hk pt)

theorem Covers.message (hH : H.Lawful) (h : s.Covers) {peer : P} {m : SignedMessage K V Timestamp}
    {pt : PhysicalTime} (hb : s.inBudget (.message peer m pt) = true) :
    (s.handleVerifiedMessage H R peer m pt).2.Covers ∧
      Advances s.entries (s.handleVerifiedMessage H R peer m pt).2.entries := by
  have hle := observed_last_le hH (passes_of_inBudget hb)
  rw [handleVerifiedMessage, Covers]
  rcases s.toSignedReplica.entries_handleVerifiedMessage R peer m with
    he | ⟨key, entry, rfl, hp, he⟩
  · simp only [he]
    exact ⟨fun k e hk => (h k e hk).trans hle, .refl _⟩
  · rw [inBudget, hp, Bool.not_true, Bool.false_or, Bool.and_eq_true, decide_eq_true_eq] at hb
    have hentry : entry.stamp.hlc ≤ (s.observed H peer (.update key entry) pt).last := by
      rw [observed, if_pos hp]
      exact HlcClock.remote_le_observe hH hb.1 hb.2
    simp only [he]
    refine ⟨reached_insert h hle ?_, .insert fun e hk => SignedReplica.le_mergedEntry hk entry⟩
    -- the merge keeps the entry held, which was covered, or takes the one observed
    rcases s.toSignedReplica.mergedEntry_eq_or (R := R) key entry with hm | hm
    · exact (h key _ hm).trans hle
    · rw [hm]
      exact hentry

/-- A step within the budget keeps the clock ahead, and no stamp decreases. -/
theorem Covers.step (hH : H.Lawful) (h : s.Covers) {ev : CausalEvent K V P}
    (hb : s.inBudget ev = true) :
    (s.step H fits R ev).Covers ∧ Advances s.entries (s.step H fits R ev).entries := by
  cases ev with
  | write w pt =>
    have htop : s.clock.last ≠ Hlc.top := by simpa [inBudget] using hb
    exact h.write hH htop w pt
  | message peer m pt => exact h.message hH hb
  | decommission peer =>
    have he := s.toSignedReplica.entries_decommission peer
    rw [SignedCausal.step, Covers]
    simp only [he]
    exact ⟨h, .refl _⟩
  | collect key => exact ⟨h, .refl _⟩
  | journal generations => exact ⟨h, .refl _⟩

abbrev Run (H : HlcArithmetic) (R : Rsos Timestamp V)
    (fits : K → Entry Timestamp V → Except SignedError Unit) :
    SignedCausal K V P → List (CausalEvent K V P) → SignedCausal K V P → Prop :=
  Runs fun s ev => some (s.step H fits R ev)

abbrev InBudget (H : HlcArithmetic) (R : Rsos Timestamp V)
    (fits : K → Entry Timestamp V → Except SignedError Unit) :
    SignedCausal K V P → List (CausalEvent K V P) → Prop :=
  EachStep (fun s ev => some (s.step H fits R ev)) fun s ev _ => s.inBudget ev = true

theorem Covers.run (hH : H.Lawful) (h : s.Covers) (hr : Run H R fits s es s') (hb : InBudget H R fits s es) :
    s'.Covers ∧ Advances s.entries s'.entries := by
  refine hr.invariant_of (fun _ t => t.Covers ∧ Advances s.entries t.entries) ⟨h, .refl _⟩ ?_ hb
  rintro _ t ev _ ⟨ht, ha⟩ hs hev
  cases hs
  exact ⟨(ht.step hH hev).1, ha.trans (ht.step hH hev).2⟩

variable {s₀ s₁ s₂ s₃ s₄ : SignedCausal K V P} {es₁ es₂ es₃ : List (CausalEvent K V P)}

/-- In a run within the budget a local write is dated after the entry it replaces, no stamp
decreases, and an entry held at any time before the write does not come back by being delivered
again at any time after it. -/
theorem local_write_dominates (hH : H.Lawful) {roles : SignedRoles P} {c : HlcClock}
    {w : LocalWrite K V} (h₀ : restore H roles c readings loaded = .ok s₀)
    (hp : ∀ saved, loaded = some saved → loadPasses H readings 0 c saved.entries = true)
    (hr₁ : Run H R fits s₀ es₁ s₁) (hr₂ : Run H R fits s₁ es₂ s₂)
    (hw : s₂.write H fits w pt = (.ok (), s₃)) (hr₃ : Run H R fits s₃ es₃ s₄)
    (hb : InBudget H R fits s₀ (es₁ ++ (es₂ ++ .write w pt :: es₃))) :
    (∃ stamp, s₃.entries.lookup w.key = some (w.entry stamp) ∧
        ∀ old, s₂.entries.lookup w.key = some old → old.stamp < stamp) ∧
      Advances s₁.entries s₄.entries ∧
      ∀ held peer pt', s₁.entries.lookup w.key = some held →
        (s₄.step H fits R (.message peer (.update w.key held) pt')).entries.lookup w.key =
          s₄.entries.lookup w.key := by
  have hb₂ := hb.rest hr₁
  have hb₃ : InBudget H R fits s₂ ([.write w pt] ++ es₃) := hb₂.rest hr₂
  have hc₁ := (covers_restore hH h₀ hp).run hH hr₁ hb.init
  have hc₂ := hc₁.1.run hH hr₂ hb₂.init
  have hev : s₂.inBudget (.write w pt) = true := hb₃ [] _ es₃ s₂ _ rfl .start rfl
  have hr : Run H R fits s₂ [.write w pt] s₃ :=
    Runs.start.snoc (congrArg some (congrArg Prod.snd hw))
  have hc₃ := hc₂.1.run hH hr hb₃.init
  have hc₄ := hc₃.1.run hH hr₃ (hb₃.rest hr)
  obtain ⟨hstored, hlt⟩ := hc₂.1.lt_written hH (by simpa [inBudget] using hev) hw
  have hwritten : s₃.entries.lookup w.key = some (w.entry (s₂.clock.now H pt).1) := by
    rw [hstored]
    exact AList.lookup_insert _
  refine ⟨⟨_, hwritten, hlt⟩, hc₂.2.trans (hc₃.2.trans hc₄.2), ?_⟩
  intro held peer pt' hheld
  -- from the entry held first: not after the one replaced, before the written one and any later
  obtain ⟨old, hold, hle⟩ := hc₂.2 _ _ hheld
  obtain ⟨e, he, hle'⟩ := hc₄.2 _ _ hwritten
  have hlt' : held.stamp < e.stamp := by
    rw [LocalWrite.stamp_entry] at hle'
    exact (hle.trans_lt (hlt old hold)).trans_le hle'
  rw [he]
  exact SignedReplica.lookup_redelivered he hlt' peer

def soleAuthority : SignedRoles Nat where
  authorities := AList.insert 7 () ∅

def register : Rsos Timestamp Nat where
  toMerge := Merge.keepLocal Timestamp Nat
  digest s := match s with
    | .present v => v + 1
    | .tombstone => 0
  entryDigest e := e.stamp.hlc.physical.val

def updateAt (ms : PhysicalTime) : CausalEvent Nat Nat Nat :=
  .message 7 (.update 1 (.present ⟨⟨ms, 0⟩, 7⟩ 10)) 1000

def unlimited (_ : Nat) (_ : Entry Timestamp Nat) : Except SignedError Unit := .ok ()

def started : SignedCausal Nat Nat Nat where
  members := soleAuthority.authorities
  generations := GenerationState.transact {} [.member 7 true]
  authorities := soleAuthority.authorities
  clock := { nodeId := 1 }

theorem started_restored :
    restore .standard soleAuthority { nodeId := 1 } (fun _ => 0) none = .ok started := rfl

def received (ms : PhysicalTime) : SignedCausal Nat Nat Nat :=
  started.step .standard unlimited register (updateAt ms)

theorem run_received (ms : PhysicalTime) :
    Run .standard register unlimited started [updateAt ms] (received ms) := Runs.start.snoc rfl

/-- The authority's update is dated half a second ahead; the node then writes and later deletes
the key, and the update is delivered again. -/
theorem local_write_dominates_near_update :
    ∃ s₃ s₄, (received 1500).write .standard unlimited (.insert 1 20) 1001 = (.ok (), s₃) ∧
      Run .standard register unlimited s₃ [.write (.remove 1) 1002] s₄ ∧
      Advances (received 1500).entries s₄.entries ∧
      (s₄.step .standard unlimited register (updateAt 1500)).entries.lookup 1 =
        s₄.entries.lookup 1 := by
  have hw : (received 1500).write .standard unlimited (.insert 1 20) 1001 = (.ok (), _) := rfl
  obtain ⟨_, hadvances, hkept⟩ := local_write_dominates HlcArithmetic.lawful_standard
    started_restored nofun (run_received 1500) .start hw (Runs.start.snoc (e := .write (.remove 1) 1002) rfl)
    (eachStep_of_checkAll (by decide +kernel))
  exact ⟨_, _, hw, Runs.start.snoc rfl, hadvances, hkept _ 7 1000 rfl⟩

/-- An update dated beyond the budget is stored as it is, while the clock stops at the cap: the
local write that follows is dated before the entry it replaces, and delivering that entry again
undoes the write. -/
theorem local_write_undone :
    restore .standard soleAuthority { nodeId := 1 } (fun _ => 0) none = .ok started ∧
    Run .standard register unlimited started [updateAt 10000000] (received 10000000) ∧
    ∃ s₃, (received 10000000).write .standard unlimited (.insert 1 20) 1001 = (.ok (), s₃) ∧
      (received 10000000).entries.lookup 1 = some (.present ⟨⟨10000000, 0⟩, 7⟩ 10) ∧
      s₃.entries.lookup 1 = some (.present ⟨⟨3601000, 2⟩, 1⟩ 20) ∧
      (⟨⟨3601000, 2⟩, 1⟩ : Timestamp) < ⟨⟨10000000, 0⟩, 7⟩ ∧
      (s₃.step .standard unlimited register (updateAt 10000000)).entries.lookup 1 =
        some (.present ⟨⟨10000000, 0⟩, 7⟩ 10) := by
  refine ⟨started_restored, run_received _, _, rfl, ?_⟩
  decide +kernel

end SignedCausal

end Reconcile
