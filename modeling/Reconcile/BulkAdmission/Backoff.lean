import Reconcile.BulkAdmission
import Reconcile.Lib.Backoff

namespace Reconcile.BulkAdmission
open Lib Lib.Backoff
set_option autoImplicit true

variable {A : Type} [DecidableEq A]

def admittedWork (p : A) (channel : DumpChannel) (tr : List (AdmitCall A × AdmitOutcome)) :
    List (Fixed 32 × Nat) :=
  (tr.filter fun e => decide ((e.1.peer = p ∧ e.1.channel = channel) ∧ e.2 = .admitted)).map
    fun e => (e.1.fingerprint, e.1.now)

theorem admittedWork_snoc (p : A) (channel : DumpChannel)
    (tr : List (AdmitCall A × AdmitOutcome)) (c : AdmitCall A) (o : AdmitOutcome) :
    admittedWork p channel (tr ++ [(c, o)]) = admittedWork p channel tr ++
      if (c.peer = p ∧ c.channel = channel) ∧ o = .admitted then [(c.fingerprint, c.now)]
      else [] := by
  rw [admittedWork, List.filter_append, List.map_append, admittedWork]
  split
  · next h => rw [List.filter_cons, if_pos (decide_eq_true h), List.filter_nil, List.map_singleton]
  · next h => rw [List.filter_cons, if_neg (by simpa using h), List.filter_nil, List.map_nil]

def recentOf (clock : Monotonic) (l : Attempt (Fixed 32)) : RecentWork :=
  ⟨l.work, l.since + l.delay, l.delay, l.since + clock.recentWorkRetention⟩

/-- The entry of a peer on a channel is that of a backoff. -/
def Follows (clock : Monotonic) (now : Nat) (work : Option RecentWork)
    (done : List (Fixed 32 × Nat)) : Prop :=
  ∃ last, Backed clock.repeatedWorkRetryMin clock.repeatedWorkRetryMax clock.recentWorkRetention
    now last done ∧ work = last.map (recentOf clock)

theorem Follows.wait (h : Follows clock now work done) (hnow : now ≤ now') :
    Follows clock now' work done := by
  obtain ⟨last, hb, he⟩ := h
  exact ⟨last, hb.wait hnow, he⟩

theorem Follows.purge (h : Follows clock now work done) (hnow : now ≤ now') :
    Follows clock now' (work.filter fun w => now' < w.forgetAfter) done := by
  obtain ⟨last, hb, rfl⟩ := h
  cases last with
  | none => exact ⟨none, hb.wait hnow, rfl⟩
  | some l =>
    rw [Option.map_some, Option.filter_some]
    split
    · exact ⟨some l, hb.wait hnow, rfl⟩
    · next hover =>
      rw [decide_eq_true_eq, Nat.not_lt] at hover
      exact ⟨none, (hb.wait hnow).forget hover, rfl⟩

/-- Doubling a delay never saturates below the longest retry delay. -/
theorem min_saturatingMul (clock : Monotonic) (d : Nat) :
    min (clock.saturatingMul d 2) clock.repeatedWorkRetryMax =
      min (2 * d) clock.repeatedWorkRetryMax := by
  have hpos := clock.second_pos
  rw [Monotonic.saturatingMul, Monotonic.durationMax, Monotonic.repeatedWorkRetryMax]
  omega

theorem retryDelay_eq {s : AdmissionState A} {c : AdmitCall A}
    (h : (s.recent c.channel).lookup c.peer = last.map (recentOf clock)) :
    s.retryDelay clock c =
      nextDelay clock.repeatedWorkRetryMin clock.repeatedWorkRetryMax last c.fingerprint := by
  rw [AdmissionState.retryDelay, h]
  cases last with
  | none => rfl
  | some l =>
    rw [Option.map_some, Option.filter_some, nextDelay]
    change (Option.map _ (if decide (l.work = c.fingerprint) = true then
      some (recentOf clock l) else none)).getD _ = _
    by_cases hw : l.work = c.fingerprint
    · rw [if_pos (decide_eq_true hw), if_pos hw]
      exact min_saturatingMul clock l.delay
    · rw [if_neg fun h => hw (of_decide_eq_true h), if_neg hw]
      rfl

theorem due_of_not_repeats {s : AdmissionState A} {c : AdmitCall A} (hnew : s.repeats c = false)
    (h : (s.recent c.channel).lookup c.peer = some (recentOf clock l))
    (hw : l.work = c.fingerprint) : l.since + l.delay ≤ c.now := by
  rw [AdmissionState.repeats, h] at hnew
  simpa [recentOf, hw] using hnew

theorem Follows.accept {s : AdmissionState A} {c : AdmitCall A}
    (h : Follows clock c.now ((s.recent c.channel).lookup c.peer) done)
    (hnew : s.repeats c = false) :
    Follows clock c.now (some ⟨c.fingerprint, c.now + s.retryDelay clock c, s.retryDelay clock c,
      c.now + clock.recentWorkRetention⟩) (done ++ [(c.fingerprint, c.now)]) := by
  obtain ⟨last, hb, he⟩ := h
  rw [retryDelay_eq he]
  refine ⟨some _, hb.attempt fun l hl hw => ?_, rfl⟩
  subst hl
  exact due_of_not_repeats hnew he hw

omit [DecidableEq A] in
theorem recent_setRecent (s : AdmissionState A) (work : HashMap A RecentWork)
    (channel channel' : DumpChannel) :
    (s.setRecent work channel').recent channel =
      if channel = channel' then work else s.recent channel := by
  cases channel <;> cases channel' <;> rfl

theorem lookup_remember {s t : AdmissionState A} (c : AdmitCall A)
    (hrecent : ∀ channel, t.recent channel = s.recent channel) (r f : Nat) (p : A)
    (channel : DumpChannel) :
    ((t.remember clock c r f).recent channel).lookup p =
      if c.peer = p ∧ c.channel = channel then
        some ⟨c.fingerprint, r, s.retryDelay clock c, f⟩
      else (s.recent channel).lookup p := by
  have hdelay : t.retryDelay clock c = s.retryDelay clock c := by
    rw [AdmissionState.retryDelay, AdmissionState.retryDelay, hrecent]
  rw [AdmissionState.remember, hdelay, recent_setRecent]
  by_cases hc : channel = c.channel
  · subst hc
    rw [if_pos rfl, HashMap.lookup_insert_eq, hrecent]
    simp only [and_true, eq_comm]
  · rw [if_neg hc, if_neg fun h => hc h.2.symm, hrecent]

theorem lookup_purge_recent (s : AdmissionState A) (now : Nat) (channel : DumpChannel) (p : A) :
    ((s.purge now).recent channel).lookup p =
      ((s.recent channel).lookup p).filter fun work => now < work.forgetAfter := by
  cases channel
  · exact HashMap.lookup_retain (fun work => now < work.forgetAfter) s.recentDated p
  · exact HashMap.lookup_retain (fun work => now < work.forgetAfter) s.recentValue p

theorem Effect.follows (heffect : Effect clock a s c r) (hnow : now ≤ c.now) (p : A)
    (channel : DumpChannel)
    (h : Follows clock now ((s.recent channel).lookup p) (admittedWork p channel tr)) :
    Follows clock c.now ((r.2.recent channel).lookup p)
      (admittedWork p channel (tr ++ [(c, r.1)])) := by
  have hpurged := h.purge hnow
  rw [← lookup_purge_recent] at hpurged
  cases heffect with
  | closed =>
    rw [admittedWork_snoc, if_neg (by simp), List.append_nil]
    exact h.wait hnow
  | rejected =>
    rw [admittedWork_snoc, if_neg (by simp), List.append_nil]
    exact hpurged
  | panicked hrecent =>
    rw [admittedWork_snoc, if_neg (by simp), List.append_nil]
    dsimp only
    rw [hrecent]
    exact hpurged
  | admitted _ hnew =>
    rw [admittedWork_snoc]
    dsimp only
    rw [lookup_remember (s := s.purge c.now) c (fun channel => by cases channel <;> rfl)]
    by_cases hc : c.peer = p ∧ c.channel = channel
    · obtain ⟨rfl, rfl⟩ := hc
      rw [if_pos ⟨rfl, rfl⟩, if_pos ⟨⟨rfl, rfl⟩, rfl⟩]
      exact hpurged.accept hnew
    · rw [if_neg hc, if_neg fun h => hc h.1, List.append_nil]
      exact hpurged

theorem Calls.follows (h : Calls clock a now tr s) (p : A) (channel : DumpChannel) :
    Follows clock now ((s.recent channel).lookup p) (admittedWork p channel tr) := by
  refine h.of_effect (I := fun now tr s => Follows clock now ((s.recent channel).lookup p)
    (admittedWork p channel tr)) ?_ ?_
  · exact ⟨none, .start, by cases channel <;> rfl⟩
  · intro now tr s c r hnow ih heffect
    exact heffect.follows hnow p channel ih

omit [DecidableEq A] in
theorem purge_purge (s : AdmissionState A) (h : now ≤ now') :
    (s.purge now).purge now' = s.purge now' := by
  have hretain {V : Type} (ends : V → Nat) (m : HashMap A V) :
      (m.retain fun v => now < ends v).retain (fun v => now' < ends v) =
        m.retain fun v => now' < ends v :=
    HashMap.retain_retain (fun v hv => decide_eq_true (h.trans_lt (of_decide_eq_true hv))) m
  have hglobal : ((s.purge now).purge now').globalTat = (s.purge now').globalTat := by
    rw [purge_globalTat, purge_globalTat, purge_globalTat, Option.filter_filter]
    congr 1
    funext tat
    rw [← Bool.decide_and]
    exact decide_eq_decide.2 ⟨fun h' => h'.2, fun h' => ⟨h.trans_lt h', h'⟩⟩
  exact AdmissionState.ext (hretain (fun tat => tat) s.peers) hglobal
    (hretain RecentWork.forgetAfter s.recentDated) (hretain RecentWork.forgetAfter s.recentValue)

def runCalls (clock : Monotonic) (a : BulkAdmission) (s : AdmissionState A) :
    List (AdmitCall A) → List AdmitOutcome × AdmissionState A
  | [] => ([], s)
  | c :: cs =>
    let (outcomes, s') := runCalls clock a (a.tryAdmitAt clock s c).2 cs
    ((a.tryAdmitAt clock s c).1 :: outcomes, s')

variable {clock : Monotonic} {a : BulkAdmission} {s : AdmissionState A} {c c' : AdmitCall A}

theorem state_of_rejected (h : (a.tryAdmitAt clock s c).1 = .rejected rejection) :
    (a.tryAdmitAt clock s c).2 = s ∨
      a.globalRate ≠ 0 ∧ (a.tryAdmitAt clock s c).2 = s.purge c.now := by
  have heffect := tryAdmitAt_effect clock a s c
  generalize a.tryAdmitAt clock s c = r at heffect h ⊢
  cases heffect with
  | closed => exact .inl rfl
  | rejected hrate => exact .inr ⟨hrate, rfl⟩
  | panicked => cases h
  | admitted => cases h

/-- After a rejected call every later call ends as if it had not been made. -/
theorem tryAdmitAt_after_rejected (h : (a.tryAdmitAt clock s c).1 = .rejected rejection)
    (hnow : c.now ≤ c'.now) :
    a.tryAdmitAt clock (a.tryAdmitAt clock s c).2 c' = a.tryAdmitAt clock s c' := by
  rcases state_of_rejected h with he | ⟨hrate, he⟩
  · rw [he]
  · rw [he, tryAdmitAt, if_neg hrate, purge_purge s hnow, tryAdmitAt, if_neg hrate]

theorem runCalls_after_rejected (h : (a.tryAdmitAt clock s c).1 = .rejected rejection)
    (hnow : c.now ≤ c'.now) (cs : List (AdmitCall A)) :
    runCalls clock a (a.tryAdmitAt clock s c).2 (c' :: cs) = runCalls clock a s (c' :: cs) := by
  rw [runCalls, tryAdmitAt_after_rejected h hnow, ← runCalls]

/-- While a peer's channel is admitted for one fingerprint only, with no gap of a minute, the gap
after the `i`-th admission is at least `min(2^i, 30)` seconds. A rejected call writes nothing, and
all later calls end as if it had not been made. -/
theorem repeated_work_backs_off (clock : Monotonic) (a : BulkAdmission) :
    (∀ now tr s (p : A) channel fingerprint pre (times : List Nat) post, Calls clock a now tr s →
      admittedWork p channel tr = pre ++ times.map (Prod.mk fingerprint) ++ post →
      (times.IsChain fun t t' => t' < t + 60 * clock.second) →
      ∀ i t t', times[i]? = some t → times[i + 1]? = some t' →
        t + min (2 ^ i) 30 * clock.second ≤ t') ∧
    ∀ (s : AdmissionState A) c rejection, (a.tryAdmitAt clock s c).1 = .rejected rejection →
      ((a.tryAdmitAt clock s c).2 = s ∨ (a.tryAdmitAt clock s c).2 = s.purge c.now) ∧
      ∀ c' cs, c.now ≤ c'.now →
        runCalls clock a (a.tryAdmitAt clock s c).2 (c' :: cs) = runCalls clock a s (c' :: cs) := by
  refine ⟨?_, fun s c rejection h => ⟨?_, fun c' cs hnow => runCalls_after_rejected h hnow cs⟩⟩
  · intro now tr s p channel fingerprint pre times post h hdone hclose i t t' ht ht'
    obtain ⟨last, hbacked, -⟩ := h.follows p channel
    have hle := hbacked.paused hdone hclose i t t' ht ht'
    rwa [Monotonic.repeatedWorkRetryMin, Monotonic.repeatedWorkRetryMax, Nat.mul_min_mul_right]
      at hle
  · exact (state_of_rejected h).imp_right And.right

def sampleRetry (now : Nat) : AdmitCall Nat := { sampleCall 1 with now := now }

def sampleAdmission : BulkAdmission := new .nanoseconds (1000000000 / ·) 2

def sampleState : AdmissionState Nat :=
  (sampleAdmission.tryAdmitAt .nanoseconds {} (sampleRetry 0)).2

theorem repeated_work_backs_off_three :
    ∃ tr s, Calls (A := Nat) .nanoseconds sampleAdmission 3000000000 tr s ∧
      tr.map Prod.snd = [.admitted, .admitted, .rejected .repeatedWork, .admitted] ∧
      (∀ i t t', [0, 1000000000, 3000000000][i]? = some t →
        [0, 1000000000, 3000000000][i + 1]? = some t' →
        t + min (2 ^ i) 30 * Monotonic.nanoseconds.second ≤ t') ∧
      runCalls .nanoseconds sampleAdmission
        (sampleAdmission.tryAdmitAt .nanoseconds sampleState (sampleRetry 500000000)).2
        [sampleRetry 1000000000] =
      runCalls .nanoseconds sampleAdmission sampleState [sampleRetry 1000000000] := by
  have h₀ : Calls (A := Nat) .nanoseconds sampleAdmission 0 [] {} := .start
  have h := (((h₀.call (c := sampleRetry 0) (by decide)).call (c := sampleRetry 1000000000)
    (by decide)).call (c := sampleRetry 2500000000) (by decide)).call
    (c := sampleRetry 3000000000) (by decide)
  refine ⟨_, _, h, by decide +kernel, ?_, ?_⟩
  · refine (repeated_work_backs_off .nanoseconds _).1 _ _ _ 1 .dated (sampleCall 1).fingerprint [] _
      [] h (by decide +kernel) ?_
    simp [Monotonic.nanoseconds]
  · exact ((repeated_work_backs_off .nanoseconds _).2 _ _ .repeatedWork (by decide +kernel)).2 _ []
      (by decide)

end Reconcile.BulkAdmission
