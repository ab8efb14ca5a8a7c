import Reconcile.Replay.Safety

namespace Reconcile.Replay
open Lib
set_option autoImplicit true

variable {K : Type} [DecidableEq K]

theorem admitSender_len (p : Policy) {map : HashMap K PeerState} (sender : K)
    (seq stamp now : Nat) (h : map.len ≤ p.maxSenders) :
    HashMap.len (admitSender p map sender seq stamp now).2 ≤ p.maxSenders := by
  rw [admitSender]
  split
  · split
    · exact (map.len_retain_le _).trans h
    · next hroom => exact (HashMap.len_insert_le ..).trans (Nat.lt_of_not_le hroom)
  · next hroom => exact (HashMap.len_insert_le ..).trans (Nat.lt_of_not_le hroom)

theorem checkAndRecordSender_len (p : Policy) {map : HashMap K PeerState} (sender : K)
    (seq stamp now : Nat) (h : map.len ≤ p.maxSenders) :
    HashMap.len (checkAndRecordSender p map sender seq stamp now).2 ≤ p.maxSenders := by
  unfold checkAndRecordSender
  split
  · split
    · next s hs =>
      split
      · rw [HashMap.len_insert, Nat.add_comm]
        exact (Nat.succ_le_of_lt (HashMap.len_erase_lt hs)).trans h
      · exact admitSender_len p sender seq stamp now ((map.len_erase_le sender).trans h)
    · exact admitSender_len p sender seq stamp now h
  · exact h

theorem check_of_tracked (p : Policy) {map : HashMap K PeerState} {sender : K}
    (h : map.len ≤ p.maxSenders) (hs : map.lookup sender = some s)
    (hf : isFresh stamp now p.freshnessWindow = true) (seq : Nat) :
    (checkAndRecordSender p map sender seq stamp now).1 =
      if p.live now s then (s.accept seq stamp).1 else true := by
  rw [checkAndRecordSender, if_pos hf, hs]
  simp only
  split
  · rfl
  · -- dropping the sender's own expired state made room for its new one
    have hroom : HashMap.len (map.erase sender) < p.maxSenders :=
      Nat.lt_of_lt_of_le (HashMap.len_erase_lt hs) h
    rw [admitSender, if_neg (Nat.not_le_of_lt hroom)]

theorem PeerState.accept_newest {s : PeerState} (h : (s.accept seq stamp).1 = true) :
    s.stampAtMax ≤ (s.accept seq stamp).2.stampAtMax ∧
      stamp ≤ (s.accept seq stamp).2.stampAtMax := by
  have hlevel := s.level
  rcases s.accept_cases seq stamp with ⟨_, ha⟩ | ⟨_, _, hs, ha⟩ | ⟨_, _, hs, ha⟩ |
    ⟨_, _, hs, _, _, ha⟩
  · rw [ha] at h
    cases h
  · rw [ha]
    exact ⟨hlevel ▸ Nat.le_of_not_lt hs, Nat.le_refl stamp⟩
  · rw [ha]
    exact ⟨Nat.le_of_lt hs, Nat.le_refl stamp⟩
  · rw [ha]
    exact ⟨Nat.le_refl _, hs⟩

namespace Receiver

/-- The state of a sender is as new as all that was accepted from it, and all that was accepted from
a sender without one is stale. -/
structure Newest (p : Policy) (r : Receiver K) (k : K) : Prop where
  le : ∀ s, r.peers.lookup k = some s → ∀ q t, r.admitted k q t → t ≤ s.stampAtMax
  stale : r.peers.lookup k = none → ∀ q t, r.admitted k q t → t + windowMs p.freshnessWindow < r.now

structure Capacious (p : Policy) (r : Receiver K) : Prop where
  len : r.peers.len ≤ p.maxSenders
  newest : ∀ k, r.Newest p k

variable {p : Policy} {r r' : Receiver K} {d : Delivery K}

theorem Newest.lt_of_expired {k : K} {now : Nat} (h : r.Newest p k) (hs : r.peers.lookup k = some s)
    (hl : p.live now s = false) (hqt : r.admitted k q t) :
    t + windowMs p.freshnessWindow < now := by
  have hle := h.le s hs q t hqt
  have hdead : ¬now ≤ s.stampAtMax + windowMs p.freshnessWindow := by
    rw [← p.live_iff, hl]
    exact Bool.false_ne_true
  omega

theorem Newest.kept {k : K} (h : r.Newest p k) (hn : r.now ≤ r'.now)
    (hs : r'.admitted k = r.admitted k) (hk : Kept p r'.now r.peers r'.peers k) : r'.Newest p k := by
  rcases hk with hk | ⟨hk, s, hls, hl⟩
  · refine ⟨?_, ?_⟩
    · rw [hk, hs]
      exact h.le
    · rw [hk, hs]
      intro hnone q t hqt
      exact Nat.lt_of_lt_of_le (h.stale hnone q t hqt) hn
  · refine ⟨?_, ?_⟩
    · intro s' hls'
      rw [hk] at hls'
      cases hls'
    · rw [hs]
      intro _ q t hqt
      exact h.lt_of_expired hls hl hqt

theorem Newest.accepted (h : r.Newest p d.sender) (hn : r.now ≤ d.now)
    (ha : (r.check p d).1 = true) : (r.after p d).Newest p d.sender := by
  have hadmitted := (after_sender ha).2
  rcases check_cases p r d with ⟨hr, _⟩ | ⟨_, hf, hw, hl⟩ | ⟨_, s, hw, hs, hl⟩
  · rw [hr] at ha
    cases ha
  · refine ⟨?_, fun hnone => absurd (hl.symm.trans hnone) (by rintro ⟨⟩)⟩
    intro s hs q t hqt
    rw [hadmitted] at hqt
    cases hl.symm.trans hs
    rcases hqt with ⟨_, rfl⟩ | hqt
    · exact Nat.le_refl _
    · -- what was accepted before the window was opened is stale by now
      have hstale : t + windowMs p.freshnessWindow < d.now := by
        cases hold : r.peers.lookup d.sender with
        | none => exact Nat.lt_of_lt_of_le (h.stale hold q t hqt) hn
        | some s => exact h.lt_of_expired hold (live_of_window?_eq_none hw hold) hqt
      have hfresh := ((isFresh_iff ..).1 hf).1
      change t ≤ d.stamp
      omega
  · obtain ⟨hup, hstamp⟩ := PeerState.accept_newest hs
    refine ⟨?_, fun hnone => absurd (hl.symm.trans hnone) (by rintro ⟨⟩)⟩
    intro s' hs' q t hqt
    rw [hadmitted] at hqt
    cases hl.symm.trans hs'
    rcases hqt with ⟨_, rfl⟩ | hqt
    · exact hstamp
    · exact (h.le s (window?_eq_some hw).1 q t hqt).trans hup

theorem Newest.after (h : ∀ k, r.Newest p k) (hn : r.now ≤ d.now) (k : K) :
    (r.after p d).Newest p k := by
  by_cases hk : k = d.sender
  · subst hk
    cases ha : (r.check p d).1 with
    | false => exact (h d.sender).kept hn (after_rejected ha d.sender).2 (check_kept_of_rejected ha)
    | true => exact (h d.sender).accepted hn ha
  · exact (h k).kept hn (after_other hk).2 (check_kept hk)

theorem capacious_empty : ({} : Receiver K).Capacious p where
  len := Nat.zero_le _
  newest := by
    intro k
    constructor
    · rintro s ⟨⟩
    · rintro _ q t ⟨⟩

theorem Capacious.step (h : r.Capacious p) (hs : r.step p d = some r') : r'.Capacious p := by
  obtain ⟨hn, rfl⟩ := step_eq_some hs
  exact ⟨checkAndRecordSender_len p d.sender d.seq d.stamp d.now h.len, Newest.after h.newest hn⟩

theorem capacious_of_runs {ds : List (Delivery K)} (h : Runs (Receiver.step p) {} ds r) :
    r.Capacious p :=
  h.invariant (fun _ r => r.Capacious p) capacious_empty fun _ _ _ _ hc hs => hc.step hs

/-- A sender from which a stamp was accepted that is still inside the window keeps its state when
another sender's datagram is checked. -/
theorem Capacious.kept (h : r.Capacious p) (hn : r.now ≤ d.now) (hk : k ≠ d.sender)
    (hqt : r.admitted k q t) (hlive : d.now ≤ t + windowMs p.freshnessWindow) :
    ∃ s, r.peers.lookup k = some s ∧ (r.check p d).2.lookup k = some s := by
  cases hs : r.peers.lookup k with
  | none =>
    have hstale := (h.newest k).stale hs q t hqt
    omega
  | some s =>
    refine ⟨s, rfl, ?_⟩
    rcases check_kept hk with hkept | ⟨_, s', hs', hl⟩
    · exact hkept.trans hs
    · have hdead := (h.newest k).lt_of_expired hs' hl hqt
      omega

/-- In every run the tracked senders are within the capacity, the datagram of one sender never
evicts another whose newest stamp is inside the window, and a tracked sender's fresh datagram is
judged by its own window, never by the capacity. -/
theorem senders_within_capacity {ds : List (Delivery K)} (h : Runs (Receiver.step p) {} ds r) :
    r.peers.len ≤ p.maxSenders ∧
    (∀ d : Delivery K, r.now ≤ d.now → ∀ k ≠ d.sender, ∀ q t, (k, q, t) ∈ r.accepted →
      d.now ≤ t + windowMs p.freshnessWindow →
      ∃ s, r.peers.lookup k = some s ∧ (r.check p d).2.lookup k = some s) ∧
    ∀ d : Delivery K, r.now ≤ d.now → ∀ s, r.peers.lookup d.sender = some s →
      (r.check p d).1 = (isFresh d.stamp d.now p.freshnessWindow &&
        if p.live d.now s then (s.accept d.seq d.stamp).1 else true) := by
  have hc := capacious_of_runs h
  refine ⟨hc.len, ?_, ?_⟩
  · intro d hn k hk q t hqt hlive
    exact hc.kept hn hk hqt hlive
  · intro d _ s hs
    cases hf : isFresh d.stamp d.now p.freshnessWindow with
    | false =>
      rw [check, checkAndRecordSender, hf]
      rfl
    | true =>
      rw [Bool.true_and]
      exact check_of_tracked p hc.len hs hf d.seq

/-- With room for one sender, a second is turned away while the first is fresh, and the first goes
on. -/
theorem senders_within_capacity_one : ∃ r : Receiver Nat,
    Runs (Receiver.step ⟨300000000000, 1⟩) {} [⟨0, 1, 100, 100⟩, ⟨1, 1, 100, 100⟩] r ∧
      r.accepted = [(0, 1, 100)] ∧ r.peers.len ≤ 1 ∧ (r.check ⟨300000000000, 1⟩ ⟨1, 2, 150, 150⟩).1 = false ∧
      ∃ s, r.peers.lookup 0 = some s ∧
        (r.check ⟨300000000000, 1⟩ ⟨1, 2, 150, 150⟩).2.lookup 0 = some s := by
  have hrun : (runAll (Receiver.step ⟨300000000000, 1⟩) {}
      [⟨0, 1, 100, 100⟩, ⟨1, 1, 100, 100⟩]).map (fun r : Receiver Nat =>
        (r.accepted, r.now, (r.check ⟨300000000000, 1⟩ ⟨1, 2, 150, 150⟩).1)) =
      some ([(0, 1, 100)], 100, false) := by decide +kernel
  obtain ⟨r, hr, he⟩ := Option.map_eq_some_iff.1 hrun
  obtain ⟨haccepted, he⟩ := Prod.mk.inj he
  obtain ⟨hnow, hrejected⟩ := Prod.mk.inj he
  obtain ⟨hlen, hkept, _⟩ := senders_within_capacity (runs_of_runAll hr)
  refine ⟨r, runs_of_runAll hr, haccepted, hlen, hrejected, ?_⟩
  apply hkept ⟨1, 2, 150, 150⟩ (by rw [hnow]; decide) 0 (by decide) 1 100
  · rw [haccepted]
    exact List.mem_cons_self
  · decide

end Receiver

end Reconcile.Replay
