import Reconcile.Bincode
import Reconcile.SnapshotSafety

namespace Reconcile
open Lib
set_option autoImplicit true

section

variable {K V P T : Type} [LinearOrder K] [DecidableEq P]
variable {strict : Bool} {C : Codec K V P T} {j₀ : Journal K V P T} {r : Runtime}

omit [LinearOrder K] [DecidableEq P] in
theorem StoreAt.generationOf {d : Disk} {A : Image K V P T} {g : Nat} (h : StoreAt C d A g) :
    generationOf C d = g := by
  cases A with
  | bare legacy =>
    have hr : (readManifestVersion C).quiet d = (.ok none, d) := quiet_readManifestVersion h.1
    rw [Reconcile.generationOf, hr]
    exact h.2.2.symm
  | chain base deltas =>
    obtain ⟨m, hc, hg⟩ := h
    rw [Reconcile.generationOf, quiet_readManifestVersion hc.manifestAt]
    exact hg

omit [DecidableEq P] in
theorem log_exec (r : Runtime) (o : SysOp) (e : Decision) (s : Disk × Memory K V P T) :
    ((runtime r).exec o e s).2.2.log = s.2.log := by
  rcases o with o | o
  · rfl
  · cases o <;> rfl

namespace Node

def Idle (strict : Bool) (C : Codec K V P T) (j₀ : Journal K V P T) (n : Node K V P T) : Prop :=
  ∃ A g, StoreAt C n.disk A g ∧ Journaled strict j₀ .idle A.view n.memory

def Inv (strict : Bool) (C : Codec K V P T) (j₀ : Journal K V P T) (r : Runtime)
    (n : Node K V P T) : Prop :=
  match n.attempt with
  | none => n.Idle strict C j₀
  | some att => (∃ more, n.memory.log = att.begun.2.log ++ more) ∧
      Prog.Always (runtime r) (.second Disk writers) (Admits strict C) (Safe strict C j₀) att.prog
        (Returned strict C j₀ att.begun.2.log.length (Drains C att.begun)) (n.disk, n.memory)

theorem Inv.returned {n : Node K V P T} {att : Attempting K V P T} {res : SnapshotResult}
    (h : n.Inv strict C j₀ r) (ha : n.attempt = some att) (hres : att.returned = some res) :
    Returned strict C j₀ att.begun.2.log.length (Drains C att.begun) res (n.disk, n.memory) := by
  simp only [Inv, ha] at h
  obtain ⟨prog, begun⟩ := att
  cases prog with
  | call o next => cases hres
  | pure res' =>
    cases hres
    exact h.2.ret

theorem Inv.idle {n : Node K V P T} (h : n.Inv strict C j₀ r) (hu : n.unlocked = true) :
    n.Idle strict C j₀ := by
  cases ha : n.attempt with
  | none =>
    simp only [Inv, ha] at h
    exact h
  | some att =>
    simp only [unlocked, ha] at hu
    obtain ⟨res, hres⟩ := Option.isSome_iff_exists.1 hu
    obtain ⟨A, g, hs, hj, _⟩ := h.returned ha hres
    exact ⟨A, g, hs, hj⟩

theorem Inv.safe {n : Node K V P T} (h : n.Inv strict C j₀ r) :
    Safe strict C j₀ (n.disk, n.memory) := by
  unfold Inv at h
  split at h
  · obtain ⟨A, g, hs, hj⟩ := h
    exact ⟨_, A, g, hs, hj⟩
  · exact h.2.inv

theorem Inv.step {n : Node K V P T} (h₀ : j₀.Exact) (hlog : j₀.log = [])
    (h : n.Inv strict C j₀ r) (ev : Event K V P T) (hroom : n.room C ev = true)
    (hsync : strict = true → n.syncKept C ev = true) : (n.step r C ev).Inv strict C j₀ r := by
  cases ev with
  | mutate tx =>
    have hw : writers.rel n.memory (n.memory.transact tx) := ⟨[tx], rfl⟩
    simp only [Node.step, Inv]
    cases ha : n.attempt with
    | none =>
      simp only [Inv, ha] at h
      obtain ⟨A, g, hs, hj⟩ := h
      exact ⟨A, g, hs, hj.writers hw⟩
    | some att =>
      simp only [Inv, ha] at h
      obtain ⟨⟨more, hm⟩, hp⟩ := h
      refine ⟨⟨more ++ [tx], ?_⟩, hp.interfere ⟨rfl, hw⟩⟩
      rw [Memory.transact, hm, List.append_assoc]
  | snapshotNow =>
    simp only [Node.step]
    split
    · next hu =>
      obtain ⟨A, g, hs, hj⟩ := h.idle hu
      have hg : generationOf C n.disk < u64Max := of_decide_eq_true hroom
      rw [hs.generationOf] at hg
      exact ⟨⟨[], (List.append_nil _).symm⟩, always_snapshotInner h₀ hlog hs hg hj⟩
    · exact h
  | advance e =>
    simp only [Node.step]
    cases ha : n.attempt with
    | none => exact h
    | some att =>
      simp only [Inv, ha] at h
      obtain ⟨⟨more, hm⟩, hp⟩ := h
      obtain ⟨prog, begun⟩ := att
      cases prog with
      | pure res => exact ⟨⟨more, hm⟩, hp⟩
      | call o next =>
        have hadm : Admits strict C o e (n.disk, n.memory) := by
          rintro hstrict rfl ⟨w, rfl⟩ hfull
          have hk := hsync hstrict
          simpa only [syncKept, ha, Attempting.syncsManifest, hfull, Bool.and_self, Bool.not_true,
            Bool.false_or, Option.isNone_iff_eq_none] using hk
        exact ⟨⟨more, (log_exec r o e _).trans hm⟩, hp.step hadm⟩

def initialJournal (n : Node K V P T) (A : Image K V P T) : Journal K V P T :=
  n.memory.journal (A.loaded.getD ⟨[], ∅, ∅⟩) .idle

theorem view_initialJournal (n : Node K V P T) (A : Image K V P T) :
    (n.initialJournal A).durable.view = A.view := by
  unfold initialJournal Image.view
  cases A.loaded <;> rfl

theorem Inv.run {n₀ n : Node K V P T} (he : j₀.Exact) (hlog : j₀.log = [])
    (h : n₀.Inv strict C j₀ r) {allowed : Node K V P T → Event K V P T → Bool}
    (ha : ∀ n ev, allowed n ev = true →
      n.room C ev = true ∧ (strict = true → n.syncKept C ev = true))
    (hr : Reachable r C allowed n₀ n) : n.Inv strict C j₀ r := by
  induction hr with
  | refl => exact h
  | step _ ev hev ih => exact ih.step he hlog ev (ha _ ev hev).1 (ha _ ev hev).2

theorem Inv.reachable {n₀ n : Node K V P T} {A : Image K V P T} {g : Nat} (h₀ : n₀.Restored C)
    (hs : StoreAt C n₀.disk A g) (hv : n₀.memory.live.view = A.view)
    {allowed : Node K V P T → Event K V P T → Bool}
    (ha : ∀ n ev, allowed n ev = true →
      n.room C ev = true ∧ (strict = true → n.syncKept C ev = true))
    (hr : Reachable r C allowed n₀ n) : n.Inv strict C (n₀.initialJournal A) r := by
  have hd := n₀.view_initialJournal A
  have he : (n₀.initialJournal A).Exact := Journal.exact_of_clean h₀.clean (hd.trans hv.symm) rfl
  refine Inv.run he h₀.log ?_ ha hr
  simp only [Inv, h₀.attempt]
  exact ⟨A, g, hs, _, hd, .refl⟩

/-- What a call that returned `Ok` left to load covers everything made before it began. -/
theorem Inv.durable {n : Node K V P T} {att : Attempting K V P T} (hinv : n.Inv strict C j₀ r)
    (ha : n.attempt = some att) (hok : att.returned = some .ok) (hd : Drains C att.begun) :
    ∃ st later more, ((load C).quiet n.disk).1 = .ok (some st) ∧
      n.memory.log = att.begun.2.log ++ later ++ more ∧
      st.toCausal.Same (j₀.live.replay (att.begun.2.log ++ later)) := by
  obtain ⟨A, g, hs, _, _, hres⟩ := hinv.returned ha hok
  obtain ⟨⟨st, hst⟩, hcut⟩ := hres rfl
  simp only [Inv, ha] at hinv
  obtain ⟨⟨more, hm⟩, _⟩ := hinv
  obtain ⟨k, hk, _, hview⟩ := hcut hd
  obtain ⟨i, rfl⟩ := Nat.exists_eq_add_of_le hk
  have htake : n.memory.log.take (att.begun.2.log.length + i) =
      att.begun.2.log ++ more.take i := by
    rw [hm, List.take_length_add_append]
  refine ⟨st, more.take i, more.drop i, ?_, ?_, ?_⟩
  · rw [hs.load, hst]
  · rw [hm, List.append_assoc, List.take_append_drop]
  · rw [CausalState.same_iff, ← htake]
    have hA : st.toCausal.view = A.view := by
      rw [Image.view, hst]
      rfl
    exact hA.trans hview

/-- A snapshot call that returned `Ok` made durable everything completed before it began, if
nothing was pending when it began, or nothing newer than the pending generation, or the backend
declined that generation. -/
theorem snapshotNow_durable {n₀ n : Node K V P T} {att : Attempting K V P T}
    (h₀ : n₀.Restored C) (hr : Reachable r C (room C) n₀ n)
    (ha : n.attempt = some att) (hok : att.returned = some .ok) (hd : Drains C att.begun) :
    ∃ st later more, ((load C).quiet n.disk).1 = .ok (some st) ∧
      n.memory.log = att.begun.2.log ++ later ++ more ∧
      st.toCausal.Same (n₀.memory.live.replay (att.begun.2.log ++ later)) := by
  obtain ⟨A₀, g₀, hs₀, hv₀⟩ := h₀.stored
  have hinv : n.Inv false C (n₀.initialJournal A₀) r :=
    Inv.reachable h₀ hs₀ hv₀ (fun _ _ h => ⟨h, nofun⟩) hr
  exact hinv.durable ha hok hd

abbrev C₆₄ : Codec Nat Nat Nat Nat := u64Codec formatVersion

def blank : Node Nat Nat Nat Nat := ⟨fun _ => none, ⟨{}, {}, []⟩, none⟩

theorem restored_blank : blank.Restored C₆₄ where
  stored := ⟨.bare none, 0, ⟨rfl, rfl, rfl⟩, rfl⟩
  clean := ⟨rfl, rfl, rfl⟩
  log := rfl
  attempt := rfl

def finish : List (Event Nat Nat Nat Nat) := List.replicate 30 (.advance (.succeed []))

theorem exists_attempt {n : Node Nat Nat Nat Nat} {p : Attempting Nat Nat Nat Nat → Bool}
    (h : n.attempt.any p = true) : ∃ att, n.attempt = some att ∧ p att = true := by
  cases ha : n.attempt with
  | none => rw [ha] at h; cases h
  | some att =>
    rw [ha] at h
    exact ⟨att, rfl, h⟩

theorem exists_loaded_entry {d : Disk} {k : Nat} {e : Option (Entry Nat Nat)}
    (h : ((load C₆₄).quiet d).1.toOption.map (·.map (·.toCausal.entries.lookup k)) =
      some (some e)) :
    ∃ st, ((load C₆₄).quiet d).1 = .ok (some st) ∧ st.toCausal.entries.lookup k = e := by
  rcases hl : ((load C₆₄).quiet d).1 with err | st
  · rw [hl] at h
    cases h
  · rw [hl] at h
    cases st with
    | none => cases h
    | some st => exact ⟨st, rfl, Option.some.inj (Option.some.inj h)⟩

def firstSave : List (Event Nat Nat Nat Nat) :=
  [.mutate [.entry 1 (.present 1 10)], .snapshotNow] ++ finish

theorem snapshotNow_durable_firstSave : ∃ att,
    (blank.run .map C₆₄ firstSave).attempt = some att ∧ att.returned = some .ok ∧
      Drains C₆₄ att.begun ∧
      ∃ st later more, ((load C₆₄).quiet (blank.run .map C₆₄ firstSave).disk).1 = .ok (some st) ∧
        (blank.run .map C₆₄ firstSave).memory.log = att.begun.2.log ++ later ++ more ∧
        st.toCausal.Same (blank.memory.live.replay (att.begun.2.log ++ later)) := by
  have hr : Reachable .map C₆₄ (room C₆₄) blank (blank.run .map C₆₄ firstSave) :=
    Reachable.refl.run firstSave (by decide +kernel)
  obtain ⟨att, ha, hp⟩ := exists_attempt
    (n := blank.run .map C₆₄ firstSave)
    (p := fun att => att.returned == some .ok && att.begun.2.tracker.frozen.isNone)
    (by decide +kernel)
  rw [Bool.and_eq_true, beq_iff_eq, Option.isNone_iff_eq_none] at hp
  exact ⟨att, ha, hp.1, .inl hp.2, snapshotNow_durable restored_blank hr ha hp.1 (.inl hp.2)⟩

/-- A delta save fails, a newer write comes, and the next snapshot call returns `Ok`. -/
def staleRetry : List (Event Nat Nat Nat Nat) :=
  [.mutate [.entry 1 (.present 1 10), .entry 2 (.present 2 20), .entry 3 (.present 3 30)],
    .snapshotNow] ++ finish ++
  [.mutate [.entry 1 (.present 4 11)], .snapshotNow, .advance (.succeed []),
    .advance (.succeed []), .advance (.fail 0),
    .mutate [.entry 2 (.present 5 21)], .snapshotNow] ++ finish

/-- That last call only saved the generation left by the failure; the newer write is not there. -/
theorem snapshotNow_stale : ∃ n att st, Reachable .map C₆₄ (room C₆₄) blank n ∧
    n.attempt = some att ∧ att.returned = some .ok ∧
    ((load C₆₄).quiet n.disk).1 = .ok (some st) ∧
    ¬∃ later more, n.memory.log = att.begun.2.log ++ later ++ more ∧
      st.toCausal.Same (blank.memory.live.replay (att.begun.2.log ++ later)) := by
  have hr : Reachable .map C₆₄ (room C₆₄) blank (blank.run .map C₆₄ staleRetry) :=
    Reachable.refl.run staleRetry (by decide +kernel)
  obtain ⟨att, ha, hp⟩ := exists_attempt
    (n := blank.run .map C₆₄ staleRetry)
    (p := fun att => att.returned == some .ok && att.begun.2.log.length == 3)
    (by decide +kernel)
  obtain ⟨st, hst, hk⟩ := exists_loaded_entry
    (d := (blank.run .map C₆₄ staleRetry).disk) (k := 2) (e := some (.present 2 20))
    (by decide +kernel)
  rw [Bool.and_eq_true, beq_iff_eq, beq_iff_eq] at hp
  refine ⟨_, att, st, hr, ha, hp.1, hst, ?_⟩
  rintro ⟨later, more, hlog, hsame⟩
  have hlen : (blank.run .map C₆₄ staleRetry).memory.log.length = 3 := by decide +kernel
  have hnil : later = [] ∧ more = [] := by
    rw [hlog, List.length_append, List.length_append, hp.2] at hlen
    exact ⟨List.length_eq_zero_iff.1 (by omega), List.length_eq_zero_iff.1 (by omega)⟩
  rw [hnil.1, hnil.2, List.append_nil] at hlog
  have hnew : (blank.memory.live.replay
      (blank.run .map C₆₄ staleRetry).memory.log).entries.lookup 2 = some (.present 5 21) := by
    decide +kernel
  have he := hsame.entries 2
  rw [hnil.1, ← hlog, hnew, hk] at he
  exact absurd he (by decide)

/-- In runs where no directory sync fails after a full save's manifest rename while a frozen
generation is pending, loading at any moment gives the live state of one instant. -/
theorem load_coherent {n₀ n : Node K V P T} (h₀ : n₀.Restored C)
    (hr : Reachable r C (fun n ev => n.room C ev && n.syncKept C ev) n₀ n) :
    ∃ res, ((load C).quiet n.disk).1 = .ok res ∧ ∀ st, res = some st →
      ∃ k, k ≤ n.memory.log.length ∧
        st.toCausal.Same (n₀.memory.live.replay (n.memory.log.take k)) := by
  obtain ⟨A₀, g₀, hs₀, hv₀⟩ := h₀.stored
  have hinv : n.Inv true C (n₀.initialJournal A₀) r := by
    refine Inv.reachable h₀ hs₀ hv₀ (fun n ev h => ?_) hr
    rw [Bool.and_eq_true] at h
    exact ⟨h.1, fun _ => h.2⟩
  obtain ⟨a, A, g, hs, durable, hv, hj⟩ := hinv.safe
  have hview := (n₀.view_initialJournal A₀).trans hv₀.symm
  have hcoh := (Journal.coherent_of_clean h₀.clean hview rfl).reachable
    (Journal.exact_of_clean h₀.clean hview rfl) h₀.log hj
  obtain ⟨k, _, hk, hcut⟩ := hcoh.durable
  refine ⟨A.loaded, congrArg Prod.fst hs.load, ?_⟩
  intro st hst
  refine ⟨k, hk, ?_⟩
  rw [CausalState.same_iff]
  have hA : st.toCausal.view = A.view := by
    rw [Image.view, hst]
    rfl
  exact hA.trans (hv.symm.trans hcut)

def openRetry : List (Event Nat Nat Nat Nat) :=
  firstSave ++ [.mutate [.entry 1 (.present 4 11)], .snapshotNow, .advance (.succeed []),
    .advance (.succeed []), .advance (.fail 0), .mutate [.entry 2 (.present 5 21)], .snapshotNow,
    .advance (.succeed []), .advance (.succeed [])]

theorem load_coherent_openRetry :
    (blank.run .map C₆₄ openRetry).memory.tracker.frozen.isSome = true ∧
    ∃ res, ((load C₆₄).quiet (blank.run .map C₆₄ openRetry).disk).1 = .ok res ∧
      ∀ st, res = some st → ∃ k, k ≤ (blank.run .map C₆₄ openRetry).memory.log.length ∧
        st.toCausal.Same (blank.memory.live.replay
          ((blank.run .map C₆₄ openRetry).memory.log.take k)) :=
  ⟨by decide +kernel, load_coherent restored_blank
    (Reachable.refl.run openRetry (by decide +kernel))⟩

/-- A full save is published but its directory sync fails; the retry replays the older frozen
generation over the newer base. -/
def mixedRetry : List (Event Nat Nat Nat Nat) :=
  firstSave ++ [.mutate [.entry 1 (.present 2 11)], .snapshotNow, .advance (.succeed []),
    .mutate [.entry 1 (.present 3 12)],
    .mutate [.entry 2 (.present 4 20), .entry 3 (.present 5 30)]] ++
  List.replicate 15 (.advance (.succeed [])) ++ [.advance (.fail 0), .snapshotNow] ++ finish

/-- It loads the older value of one key with the newer value of another. -/
theorem load_mixed : ∃ n st, Reachable .map C₆₄ (room C₆₄) blank n ∧
    ((load C₆₄).quiet n.disk).1 = .ok (some st) ∧
    ∀ k, k ≤ n.memory.log.length →
      ¬st.toCausal.Same (blank.memory.live.replay (n.memory.log.take k)) := by
  have hr : Reachable .map C₆₄ (room C₆₄) blank (blank.run .map C₆₄ mixedRetry) :=
    Reachable.refl.run mixedRetry (by decide +kernel)
  obtain ⟨st, hst, h₁⟩ := exists_loaded_entry
    (d := (blank.run .map C₆₄ mixedRetry).disk) (k := 1) (e := some (.present 2 11))
    (by decide +kernel)
  obtain ⟨st', hst', h₂⟩ := exists_loaded_entry
    (d := (blank.run .map C₆₄ mixedRetry).disk) (k := 2) (e := some (.present 4 20))
    (by decide +kernel)
  cases Option.some.inj (Except.ok.inj (hst.symm.trans hst'))
  have hlen : (blank.run .map C₆₄ mixedRetry).memory.log.length = 4 := by decide +kernel
  have hcuts : ∀ k, k < 5 → ¬((blank.memory.live.replay
      ((blank.run .map C₆₄ mixedRetry).memory.log.take k)).entries.lookup 1 =
        some (.present 2 11) ∧
      (blank.memory.live.replay
      ((blank.run .map C₆₄ mixedRetry).memory.log.take k)).entries.lookup 2 =
        some (.present 4 20)) := by decide +kernel
  refine ⟨_, st, hr, hst, ?_⟩
  intro k hk hsame
  rw [hlen] at hk
  exact hcuts k (Nat.lt_succ_of_le hk) ⟨(hsame.entries 1).symm.trans h₁,
    (hsame.entries 2).symm.trans h₂⟩

end Node

end

end Reconcile
