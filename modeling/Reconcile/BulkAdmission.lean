import Reconcile.BulkDump
import Reconcile.Lib.Fixed
import Reconcile.Lib.Gcra
import Reconcile.Lib.HashMap

namespace Reconcile
open Lib
set_option autoImplicit true

inductive BulkAdmissionRejection where
  | repeatedWork
  | peerRate
  | globalRate
  deriving DecidableEq, Repr

/-- How a call ends; adding a duration to an instant panics past the last instant. -/
inductive AdmitOutcome where
  | admitted
  | rejected (rejection : BulkAdmissionRejection)
  | panicked
  deriving DecidableEq, Repr

structure RecentWork where
  fingerprint : Fixed 32
  retryAfter : Nat
  retryDelay : Nat
  forgetAfter : Nat

@[ext]
structure AdmissionState (A : Type) where
  peers : HashMap A Nat := ∅
  globalTat : Option Nat := none
  recentDated : HashMap A RecentWork := ∅
  recentValue : HashMap A RecentWork := ∅

structure BulkAdmission where
  globalRate : Nat
  globalInterval : Nat
  globalBurst : Nat

structure AdmitCall (A : Type) where
  peer : A
  channel : DumpChannel
  fingerprint : Fixed 32
  now : Nat

/-- The monotonic clock: how many of its ticks are a second, and its last instant. Instants and
durations are counted in ticks. -/
structure Monotonic where
  second : Nat
  lastInstant : Nat
  second_pos : 0 < second

namespace Monotonic

def nanoseconds : Monotonic := ⟨1000000000, 2 ^ 63 * 1000000000 - 1, by decide⟩

variable (clock : Monotonic)

def durationMax : Nat := 2 ^ 64 * clock.second - 1

def perPeerRefillInterval : Nat := clock.second

def repeatedWorkRetryMin : Nat := clock.second

def repeatedWorkRetryMax : Nat := 30 * clock.second

def recentWorkRetention : Nat := 60 * clock.second

def checkedAdd (t d : Nat) : Option Nat := if t + d ≤ clock.lastInstant then some (t + d) else none

def saturatingMul (d n : Nat) : Nat := min (d * n) clock.durationMax

def gcraAllows (tat now interval burst : Nat) : Bool :=
  (clock.checkedAdd now (clock.saturatingMul interval (burst - 1))).all fun limit => tat ≤ limit

theorem checkedAdd_eq_some {clock : Monotonic} (h : clock.checkedAdd t d = some t') :
    t + d ≤ clock.lastInstant ∧ t' = t + d := by
  rw [checkedAdd] at h
  split at h
  · next hle => exact ⟨hle, (Option.some.inj h).symm⟩
  · cases h

end Monotonic

namespace BulkAdmission

def perPeerBulkBurst : Nat := 3

/-- `interval` is the reciprocal of a rate as the floating-point division rounds it. -/
def new (clock : Monotonic) (interval : Nat → Nat) (globalRate : Nat) : BulkAdmission where
  globalRate := globalRate
  globalInterval := if globalRate = 0 then clock.second else interval globalRate
  globalBurst := min (min (globalRate * perPeerBulkBurst) (2 ^ 64 - 1)) (2 ^ 32 - 1)

end BulkAdmission

namespace AdmissionState
variable {A : Type} [DecidableEq A]

def recent (s : AdmissionState A) : DumpChannel → HashMap A RecentWork
  | .dated => s.recentDated
  | .valueOnly => s.recentValue

def setRecent (s : AdmissionState A) (work : HashMap A RecentWork) :
    DumpChannel → AdmissionState A
  | .dated => { s with recentDated := work }
  | .valueOnly => { s with recentValue := work }

/-- What every call drops first: debts that are over and work that may be forgotten. -/
def purge (s : AdmissionState A) (now : Nat) : AdmissionState A where
  peers := s.peers.retain fun tat => now < tat
  globalTat := if s.globalTat.any (· ≤ now) then none else s.globalTat
  recentDated := s.recentDated.retain fun work => now < work.forgetAfter
  recentValue := s.recentValue.retain fun work => now < work.forgetAfter

def repeats (s : AdmissionState A) (c : AdmitCall A) : Bool :=
  ((s.recent c.channel).lookup c.peer).any fun work =>
    work.fingerprint = c.fingerprint && c.now < work.retryAfter

def peerTat (s : AdmissionState A) (c : AdmitCall A) : Nat := (s.peers.lookup c.peer).getD c.now

def retryDelay (clock : Monotonic) (s : AdmissionState A) (c : AdmitCall A) : Nat :=
  ((((s.recent c.channel).lookup c.peer).filter fun work => work.fingerprint = c.fingerprint).map
    fun work => min (clock.saturatingMul work.retryDelay 2) clock.repeatedWorkRetryMax).getD
    clock.repeatedWorkRetryMin

def chargePeer (s : AdmissionState A) (c : AdmitCall A) (tat : Nat) : AdmissionState A :=
  { s with peers := s.peers.insert c.peer tat }

def chargeGlobal (s : AdmissionState A) (tat : Nat) : AdmissionState A :=
  { s with globalTat := some tat }

def remember (clock : Monotonic) (s : AdmissionState A) (c : AdmitCall A)
    (retryAfter forgetAfter : Nat) : AdmissionState A :=
  s.setRecent ((s.recent c.channel).insert c.peer
    ⟨c.fingerprint, retryAfter, s.retryDelay clock c, forgetAfter⟩) c.channel

end AdmissionState

namespace BulkAdmission

variable {A : Type} [DecidableEq A]

/-- The last write of an admitted call. A sum that panics leaves the writes before it. -/
def admitWork (clock : Monotonic) (s : AdmissionState A) (c : AdmitCall A) :
    AdmitOutcome × AdmissionState A :=
  match clock.checkedAdd c.now (s.retryDelay clock c) with
  | none => (.panicked, s)
  | some retryAfter =>
    match clock.checkedAdd c.now clock.recentWorkRetention with
    | none => (.panicked, s)
    | some forgetAfter => (.admitted, s.remember clock c retryAfter forgetAfter)

def admitGlobal (clock : Monotonic) (a : BulkAdmission) (s : AdmissionState A) (c : AdmitCall A) :
    AdmitOutcome × AdmissionState A :=
  match clock.checkedAdd (max (s.globalTat.getD c.now) c.now) a.globalInterval with
  | none => (.panicked, s)
  | some tat => admitWork clock (s.chargeGlobal tat) c

def admitPeer (clock : Monotonic) (a : BulkAdmission) (s : AdmissionState A) (c : AdmitCall A) :
    AdmitOutcome × AdmissionState A :=
  match clock.checkedAdd (max (s.peerTat c) c.now) clock.perPeerRefillInterval with
  | none => (.panicked, s)
  | some tat => a.admitGlobal clock (s.chargePeer c tat) c

def tryAdmitAt (clock : Monotonic) (a : BulkAdmission) (s : AdmissionState A) (c : AdmitCall A) :
    AdmitOutcome × AdmissionState A :=
  if a.globalRate = 0 then (.rejected .globalRate, s)
  else
    let s := s.purge c.now
    if s.repeats c then (.rejected .repeatedWork, s)
    else if !clock.gcraAllows (s.peerTat c) c.now clock.perPeerRefillInterval perPeerBulkBurst then
      (.rejected .peerRate, s)
    else if !clock.gcraAllows (s.globalTat.getD c.now) c.now a.globalInterval
        a.globalBurst then
      (.rejected .globalRate, s)
    else a.admitPeer clock s c

/-- Sequences of calls whose time does not decrease, from a new admission: the time of the last
call, the calls with their outcomes, and the state. -/
inductive Calls (clock : Monotonic) (a : BulkAdmission) :
    Nat → List (AdmitCall A × AdmitOutcome) → AdmissionState A → Prop where
  | start : Calls clock a 0 [] {}
  | call (h : Calls clock a now tr s) (hnow : now ≤ c.now) :
    Calls clock a c.now (tr ++ [(c, (a.tryAdmitAt clock s c).1)])
      (a.tryAdmitAt clock s c).2

inductive Charged (clock : Monotonic) (interval now : Nat) (tat : Option Nat) :
    Option Nat → Prop where
  | kept : Charged clock interval now tat tat
  | charged (hle : max (tat.getD now) now + interval ≤ clock.lastInstant) :
    Charged clock interval now tat (some (max (tat.getD now) now + interval))

/-- What a call can do, over the purged state. -/
inductive Effect (clock : Monotonic) (a : BulkAdmission) (s : AdmissionState A) (c : AdmitCall A) :
    AdmitOutcome × AdmissionState A → Prop where
  | closed (hrate : a.globalRate = 0) : Effect clock a s c (.rejected .globalRate, s)
  | rejected (hrate : a.globalRate ≠ 0) (rejection : BulkAdmissionRejection) :
    Effect clock a s c (.rejected rejection, s.purge c.now)
  | panicked (hrecent : ∀ channel, s'.recent channel = (s.purge c.now).recent channel)
    (hpeer : Charged clock clock.perPeerRefillInterval c.now
      ((s.purge c.now).peers.lookup c.peer) (s'.peers.lookup c.peer))
    (hothers : ∀ p ≠ c.peer, s'.peers.lookup p = (s.purge c.now).peers.lookup p)
    (hglobal : Charged clock a.globalInterval c.now (s.purge c.now).globalTat s'.globalTat) :
    Effect clock a s c (.panicked, s')
  | admitted (hrate : a.globalRate ≠ 0) (hnew : (s.purge c.now).repeats c = false)
    (hpeer : clock.gcraAllows ((s.purge c.now).peerTat c) c.now clock.perPeerRefillInterval
      perPeerBulkBurst = true)
    (hglobal : clock.gcraAllows ((s.purge c.now).globalTat.getD c.now) c.now
      a.globalInterval a.globalBurst = true)
    (hpeerLe : max ((s.purge c.now).peerTat c) c.now + clock.perPeerRefillInterval ≤
      clock.lastInstant)
    (hglobalLe : max ((s.purge c.now).globalTat.getD c.now) c.now + a.globalInterval ≤
      clock.lastInstant) :
    Effect clock a s c (.admitted,
      (((s.purge c.now).chargePeer c
        (max ((s.purge c.now).peerTat c) c.now + clock.perPeerRefillInterval)).chargeGlobal
        (max ((s.purge c.now).globalTat.getD c.now) c.now + a.globalInterval)).remember clock c
        (c.now + (s.purge c.now).retryDelay clock c) (c.now + clock.recentWorkRetention))

theorem admitWork_cases (clock : Monotonic) (s : AdmissionState A) (c : AdmitCall A) :
    admitWork clock s c = (.panicked, s) ∨
    admitWork clock s c =
      (.admitted, s.remember clock c (c.now + s.retryDelay clock c)
        (c.now + clock.recentWorkRetention)) := by
  unfold admitWork
  split
  · exact .inl rfl
  next retryAfter hr =>
  split
  · exact .inl rfl
  next forgetAfter hf =>
  rw [(Monotonic.checkedAdd_eq_some hr).2, (Monotonic.checkedAdd_eq_some hf).2]
  exact .inr rfl

theorem admitGlobal_cases (clock : Monotonic) (a : BulkAdmission) (s : AdmissionState A)
    (c : AdmitCall A) :
    a.admitGlobal clock s c = (.panicked, s) ∨
    (max (s.globalTat.getD c.now) c.now + a.globalInterval ≤ clock.lastInstant ∧
      a.admitGlobal clock s c = admitWork clock
        (s.chargeGlobal (max (s.globalTat.getD c.now) c.now + a.globalInterval)) c) := by
  unfold admitGlobal
  split
  · exact .inl rfl
  · next tat ht =>
    obtain ⟨hle, rfl⟩ := Monotonic.checkedAdd_eq_some ht
    exact .inr ⟨hle, rfl⟩

theorem admitPeer_cases (clock : Monotonic) (a : BulkAdmission) (s : AdmissionState A)
    (c : AdmitCall A) :
    a.admitPeer clock s c = (.panicked, s) ∨
    (max (s.peerTat c) c.now + clock.perPeerRefillInterval ≤ clock.lastInstant ∧
      a.admitPeer clock s c = a.admitGlobal clock
        (s.chargePeer c (max (s.peerTat c) c.now + clock.perPeerRefillInterval)) c) := by
  unfold admitPeer
  split
  · exact .inl rfl
  · next tat ht =>
    obtain ⟨hle, rfl⟩ := Monotonic.checkedAdd_eq_some ht
    exact .inr ⟨hle, rfl⟩

theorem admitPeer_effect {clock : Monotonic} {a : BulkAdmission} {s : AdmissionState A}
    {c : AdmitCall A} (hrate : a.globalRate ≠ 0) (hnew : (s.purge c.now).repeats c = false)
    (hpeer : clock.gcraAllows ((s.purge c.now).peerTat c) c.now clock.perPeerRefillInterval
      perPeerBulkBurst = true)
    (hglobal : clock.gcraAllows ((s.purge c.now).globalTat.getD c.now) c.now
      a.globalInterval a.globalBurst = true) :
    Effect clock a s c (a.admitPeer clock (s.purge c.now) c) := by
  rcases a.admitPeer_cases clock (s.purge c.now) c with he | ⟨hpeerLe, he⟩
  · rw [he]
    exact .panicked (fun _ => rfl) .kept (fun _ _ => rfl) .kept
  rw [he]
  have hothers (t : Nat) (p : A) (hne : p ≠ c.peer) :
      ((s.purge c.now).peers.insert c.peer t).lookup p = (s.purge c.now).peers.lookup p :=
    AList.lookup_insert_ne hne
  have hcharged : Charged clock clock.perPeerRefillInterval c.now
      ((s.purge c.now).peers.lookup c.peer)
      (((s.purge c.now).peers.insert c.peer
        (max ((s.purge c.now).peerTat c) c.now + clock.perPeerRefillInterval)).lookup c.peer) := by
    rw [AList.lookup_insert]
    exact .charged hpeerLe
  rcases a.admitGlobal_cases clock _ c with he | ⟨hglobalLe, he⟩
  · rw [he]
    exact .panicked (fun channel => by cases channel <;> rfl) hcharged (hothers _) .kept
  rw [he]
  rcases admitWork_cases clock _ c with he | he
  · rw [he]
    exact .panicked (fun channel => by cases channel <;> rfl) hcharged (hothers _)
      (.charged hglobalLe)
  · rw [he]
    exact .admitted hrate hnew hpeer hglobal hpeerLe hglobalLe

theorem tryAdmitAt_effect (clock : Monotonic) (a : BulkAdmission) (s : AdmissionState A)
    (c : AdmitCall A) : Effect clock a s c (a.tryAdmitAt clock s c) := by
  rw [tryAdmitAt]
  split
  · next hrate => exact .closed hrate
  next hrate =>
  dsimp only
  split
  · exact .rejected hrate _
  next hnew =>
  split
  · exact .rejected hrate _
  next hpeer =>
  split
  · exact .rejected hrate _
  next hglobal =>
  simp only [Bool.not_eq_true', Bool.not_eq_false, Bool.not_eq_true] at hnew hpeer hglobal
  exact admitPeer_effect hrate hnew hpeer hglobal

/-- An instant within range that the limiter allows is within the allowance, also where the sum
of the allowance is past the last instant. -/
theorem gcraAllows_le {clock : Monotonic} (h : clock.gcraAllows tat now interval burst = true)
    (hle : tat ≤ max now clock.lastInstant) : tat ≤ now + interval * (burst - 1) := by
  have hmul : clock.saturatingMul interval (burst - 1) ≤ interval * (burst - 1) := min_le_left ..
  rw [Monotonic.gcraAllows, Monotonic.checkedAdd] at h
  split at h
  · have htat : tat ≤ now + clock.saturatingMul interval (burst - 1) := by simpa using h
    omega
  · omega

structure Limited (clock : Monotonic) (interval burst now : Nat) (tat : Option Nat)
    (times : List Nat) : Prop where
  paced : Gcra.Paced interval burst now tat times
  inRange : ∀ t, tat = some t → t ≤ clock.lastInstant

theorem Limited.wait (h : Limited clock interval burst now tat times) (hnow : now ≤ now') :
    Limited clock interval burst now' tat times :=
  ⟨h.paced.wait hnow, h.inRange⟩

theorem Limited.purge (h : Limited clock interval burst now tat times) (hnow : now ≤ now') :
    Limited clock interval burst now' (tat.filter fun t => now' < t) times := by
  cases tat with
  | none => exact h.wait hnow
  | some t =>
    by_cases hlt : now' < t
    · rw [Option.filter_some, if_pos (decide_eq_true hlt)]
      exact h.wait hnow
    · rw [Option.filter_some, if_neg (by simpa using hlt)]
      exact ⟨(h.paced.wait hnow).forget (Nat.not_lt.1 hlt), by rintro _ ⟨⟩⟩

theorem Limited.charge (h : Limited clock interval burst now tat times)
    (hc : Charged clock interval now tat tat') : Limited clock interval burst now tat' times := by
  cases hc with
  | kept => exact h
  | charged hle => exact ⟨h.paced.charge, by rintro _ ⟨⟩; exact hle⟩

theorem Limited.accept (h : Limited clock interval burst now tat times)
    (hallows : clock.gcraAllows (tat.getD now) now interval burst = true)
    (hle : max (tat.getD now) now + interval ≤ clock.lastInstant) :
    Limited clock interval burst now (some (max (tat.getD now) now + interval))
      (now :: times) := by
  refine ⟨h.paced.accept (gcraAllows_le hallows ?_), by rintro _ ⟨⟩; exact hle⟩
  have htat := le_max_left (tat.getD now) now
  omega

def admittedTimes (who : A → Bool) (tr : List (AdmitCall A × AdmitOutcome)) : List Nat :=
  ((tr.filter fun e => who e.1.peer && decide (e.2 = .admitted)).map fun e => e.1.now).reverse

def admissions (who : A → Bool) (start length : Nat) (tr : List (AdmitCall A × AdmitOutcome)) :
    Nat :=
  tr.countP fun e => who e.1.peer && decide (e.2 = .admitted) &&
    decide (start ≤ e.1.now ∧ e.1.now ≤ start + length)

omit [DecidableEq A] in
theorem admissions_eq (who : A → Bool) (start length : Nat)
    (tr : List (AdmitCall A × AdmitOutcome)) :
    admissions who start length tr =
      Gcra.within start (start + length) (admittedTimes who tr) := by
  rw [admissions, Gcra.within, admittedTimes, List.countP_reverse, List.countP_map,
    List.countP_filter]
  congr 1
  funext e
  simp only [Function.comp_apply, Bool.decide_and, Bool.and_comm]

omit [DecidableEq A] in
theorem admittedTimes_admitted (who : A → Bool) (tr : List (AdmitCall A × AdmitOutcome))
    (c : AdmitCall A) :
    admittedTimes who (tr ++ [(c, .admitted)]) =
      if who c.peer then c.now :: admittedTimes who tr else admittedTimes who tr := by
  rw [admittedTimes, List.filter_append, List.map_append, List.reverse_append]
  by_cases hwho : who c.peer = true
  · simp [hwho, admittedTimes]
  · simp [hwho, admittedTimes]

omit [DecidableEq A] in
theorem admittedTimes_refused (who : A → Bool) (tr : List (AdmitCall A × AdmitOutcome))
    (c : AdmitCall A) (ho : o ≠ .admitted) :
    admittedTimes who (tr ++ [(c, o)]) = admittedTimes who tr := by
  rw [admittedTimes, List.filter_append, List.map_append, List.reverse_append]
  simp [ho, admittedTimes]

theorem lookup_purge_peers (s : AdmissionState A) (now : Nat) (p : A) :
    (s.purge now).peers.lookup p = (s.peers.lookup p).filter fun tat => now < tat :=
  HashMap.lookup_retain ..

omit [DecidableEq A] in
theorem purge_globalTat (s : AdmissionState A) (now : Nat) :
    (s.purge now).globalTat = s.globalTat.filter fun tat => now < tat := by
  rw [AdmissionState.purge]
  cases s.globalTat with
  | none => rfl
  | some tat =>
    rw [Option.filter_some]
    by_cases hlt : now < tat
    · simp [hlt, Nat.not_le.2 hlt]
    · simp [hlt, Nat.not_lt.1 hlt]

theorem remember_peers (clock : Monotonic) (s : AdmissionState A) (c : AdmitCall A) (r f : Nat) :
    (s.remember clock c r f).peers = s.peers := by
  rw [AdmissionState.remember]
  cases c.channel <;> rfl

theorem remember_globalTat (clock : Monotonic) (s : AdmissionState A) (c : AdmitCall A)
    (r f : Nat) : (s.remember clock c r f).globalTat = s.globalTat := by
  rw [AdmissionState.remember]
  cases c.channel <;> rfl

/-- What holds at the start and is kept by the effect of every call holds of every sequence. -/
theorem Calls.of_effect {I : Nat → List (AdmitCall A × AdmitOutcome) → AdmissionState A → Prop}
    (hstart : I 0 [] {})
    (hcall : ∀ {now tr s c r}, now ≤ c.now → I now tr s → Effect clock a s c r →
      I c.now (tr ++ [(c, r.1)]) r.2)
    (h : Calls clock a now tr s) : I now tr s := by
  induction h with
  | start => exact hstart
  | call _ hnow ih => exact hcall hnow ih (tryAdmitAt_effect ..)

theorem Effect.peer_limited (heffect : Effect clock a s c r) (hnow : now ≤ c.now) (p : A)
    (h : Limited clock clock.perPeerRefillInterval perPeerBulkBurst now (s.peers.lookup p)
      (admittedTimes (fun q => q = p) tr)) :
    Limited clock clock.perPeerRefillInterval perPeerBulkBurst c.now (r.2.peers.lookup p)
      (admittedTimes (fun q => q = p) (tr ++ [(c, r.1)])) := by
  have hpurged := h.purge hnow
  rw [← lookup_purge_peers] at hpurged
  cases heffect with
  | closed =>
    rw [admittedTimes_refused _ _ _ (by simp)]
    exact h.wait hnow
  | rejected =>
    rw [admittedTimes_refused _ _ _ (by simp)]
    exact hpurged
  | panicked _ hpeer hothers _ =>
    rw [admittedTimes_refused _ _ _ (by simp)]
    by_cases hp : p = c.peer
    · subst hp
      exact hpurged.charge hpeer
    · dsimp only
      rw [hothers p hp]
      exact hpurged
  | admitted _ _ hpeer _ hle _ =>
    rw [admittedTimes_admitted, remember_peers]
    change Limited _ _ _ _ (((s.purge c.now).peers.insert c.peer _).lookup p) _
    by_cases hp : p = c.peer
    · subst hp
      rw [AList.lookup_insert, if_pos (decide_eq_true rfl)]
      exact hpurged.accept hpeer hle
    · rw [AList.lookup_insert_ne hp, if_neg (by simpa using Ne.symm hp)]
      exact hpurged

theorem Effect.global_limited {tr : List (AdmitCall A × AdmitOutcome)}
    (heffect : Effect clock a s c r) (hnow : now ≤ c.now)
    (h : Limited clock a.globalInterval a.globalBurst now s.globalTat
      (admittedTimes (fun _ => true) tr)) :
    Limited clock a.globalInterval a.globalBurst c.now r.2.globalTat
      (admittedTimes (fun _ => true) (tr ++ [(c, r.1)])) := by
  have hpurged := h.purge hnow
  rw [← purge_globalTat] at hpurged
  cases heffect with
  | closed =>
    rw [admittedTimes_refused _ _ _ (by simp)]
    exact h.wait hnow
  | rejected =>
    rw [admittedTimes_refused _ _ _ (by simp)]
    exact hpurged
  | panicked _ _ _ hglobal =>
    rw [admittedTimes_refused _ _ _ (by simp)]
    exact hpurged.charge hglobal
  | admitted _ _ _ hglobal _ hle =>
    rw [admittedTimes_admitted, if_pos rfl, remember_globalTat]
    exact hpurged.accept hglobal hle

theorem Calls.peer_limited (h : Calls clock a now tr s) (p : A) :
    Limited clock clock.perPeerRefillInterval perPeerBulkBurst now (s.peers.lookup p)
      (admittedTimes (fun q => q = p) tr) := by
  refine h.of_effect (I := fun now tr s => Limited _ _ _ now (s.peers.lookup p)
    (admittedTimes (fun q => q = p) tr)) ?_ ?_
  · exact ⟨.start, by rintro _ ⟨⟩⟩
  · intro now tr s c r hnow ih heffect
    exact heffect.peer_limited hnow p ih

theorem Calls.global_limited {tr : List (AdmitCall A × AdmitOutcome)}
    (h : Calls clock a now tr s) :
    Limited clock a.globalInterval a.globalBurst now s.globalTat
      (admittedTimes (fun _ => true) tr) := by
  refine h.of_effect (I := fun now tr s => Limited _ _ _ now s.globalTat
    (admittedTimes (fun _ => true) tr)) ?_ ?_
  · exact ⟨.start, by rintro _ ⟨⟩⟩
  · intro now tr s c r hnow ih heffect
    exact heffect.global_limited hnow ih

theorem Calls.none_admitted {tr : List (AdmitCall A × AdmitOutcome)}
    (h : Calls clock a now tr s) (hrate : a.globalRate = 0) (who : A → Bool) :
    admittedTimes who tr = [] := by
  induction h with
  | start => rfl
  | call _ _ ih =>
    rw [tryAdmitAt, if_pos hrate, admittedTimes_refused _ _ _ (by simp)]
    exact ih

/-- In every closed window one peer is admitted at most three times and once more for every
second, and all peers together at most the global burst and once more for every interval. -/
theorem admitted_within_rate {clock : Monotonic} {interval : Nat → Nat} {globalRate now : Nat}
    {tr : List (AdmitCall A × AdmitOutcome)} {s : AdmissionState A}
    (h : Calls clock (new clock interval globalRate) now tr s) (start length : Nat) :
    (∀ p, admissions (fun q => q = p) start length tr ≤ 3 + length / clock.second) ∧
    (0 < (new clock interval globalRate).globalInterval →
      admissions (fun _ => true) start length tr ≤ (new clock interval globalRate).globalBurst +
        length / (new clock interval globalRate).globalInterval) := by
  refine ⟨fun p => ?_, fun hinterval => ?_⟩
  · have hle := (h.peer_limited p).paced.within_le clock.second_pos (by decide) start
      (start + length)
    rwa [← admissions_eq, Nat.add_sub_cancel_left] at hle
  · rw [admissions_eq]
    by_cases hrate : globalRate = 0
    · rw [h.none_admitted hrate]
      exact Nat.zero_le _
    · have hburst : 0 < (new clock interval globalRate).globalBurst := by
        simp only [new, perPeerBulkBurst]
        omega
      have hle := h.global_limited.paced.within_le hinterval hburst start (start + length)
      rwa [Nat.add_sub_cancel_left] at hle

def sampleCall (byte : UInt8) : AdmitCall Nat :=
  ⟨1, .dated, ⟨List.replicate 32 byte, List.length_replicate⟩, 0⟩

theorem admitted_within_rate_burst :
    ∃ tr s, Calls .nanoseconds (new .nanoseconds (1000000000 / ·) 2) 0 tr s ∧
      tr.map Prod.snd = [.admitted, .admitted, .admitted, .rejected .peerRate] ∧
      admissions (fun q => q = 1) 0 0 tr ≤ 3 + 0 / Monotonic.nanoseconds.second ∧
      admissions (fun _ => true) 0 0 tr ≤ 6 + 0 / 500000000 := by
  have h₀ : Calls (A := Nat) .nanoseconds (new .nanoseconds (1000000000 / ·) 2) 0 [] {} := .start
  have h := (((h₀.call (c := sampleCall 1) le_rfl).call (c := sampleCall 2) le_rfl).call
    (c := sampleCall 3) le_rfl).call (c := sampleCall 4) le_rfl
  exact ⟨_, _, h, by decide +kernel, (admitted_within_rate h 0 0).1 1,
    (admitted_within_rate h 0 0).2 (by decide)⟩

end BulkAdmission
end Reconcile
