import Reconcile.Replay.Filter

namespace Reconcile.Replay
open Lib
set_option autoImplicit true

/-- A window opened at stamp `o`: every datagram seen from the sender is stamped at most at the
high water, and those stamped since the opening are exactly what the bitmap records. -/
structure Window (o : Nat) (seen : Nat → Nat → Prop) (s : PeerState) : Prop where
  opened : o ≤ s.stampAtMax
  le : ∀ q t, seen q t → t ≤ s.stampAtMax
  tracks : s.Tracks fun q => ∃ t, o ≤ t ∧ seen q t

def Seen (seen : Nat → Nat → Prop) (q t q' t' : Nat) : Prop := (q' = q ∧ t' = t) ∨ seen q' t'

variable {seen : Nat → Nat → Prop} {s : PeerState} {o q t : Nat}

theorem window_of_lt (h : ∀ q' t', seen q' t' → t' < t) (hs : s.stampAtMax = t)
    (ht : s.Tracks (· = q)) : ¬ seen q t ∧ Window t (Seen seen q t) s := by
  constructor
  · intro hc
    exact Nat.lt_irrefl t (h q t hc)
  · constructor
    · exact Nat.le_of_eq hs.symm
    · intro q' t' hq
      rw [hs]
      rcases hq with ⟨_, rfl⟩ | hq
      · exact Nat.le_refl _
      · exact Nat.le_of_lt (h q' t' hq)
    · apply ht.congr
      intro q'
      constructor
      · intro hq
        exact ⟨t, Nat.le_refl _, .inl ⟨hq, rfl⟩⟩
      · intro hq
        obtain ⟨t', ht', hq⟩ := hq
        rcases hq with ⟨rfl, _⟩ | hq
        · rfl
        · exact absurd (h q' t' hq) (Nat.not_lt.2 ht')

theorem Window.join {s' : PeerState} (h : Window o seen s) (ho : o ≤ t)
    (hs : s.stampAtMax ≤ s'.stampAtMax) (ht : t ≤ s'.stampAtMax)
    (htr : s'.Tracks fun q' => q' = q ∨ ∃ t, o ≤ t ∧ seen q' t) : Window o (Seen seen q t) s' := by
  constructor
  · exact Nat.le_trans h.opened hs
  · intro q' t' hq
    rcases hq with ⟨_, rfl⟩ | hq
    · exact ht
    · exact Nat.le_trans (h.le q' t' hq) hs
  · apply htr.congr
    intro q'
    constructor
    · intro hq
      rcases hq with hq | ⟨t', ho', hq⟩
      · exact ⟨t, ho, .inl ⟨hq, rfl⟩⟩
      · exact ⟨t', ho', .inr hq⟩
    · intro hq
      obtain ⟨t', ho', hq⟩ := hq
      rcases hq with ⟨hq, _⟩ | hq
      · exact .inl hq
      · exact .inr ⟨t', ho', hq⟩

/-- An accepted datagram is a new one, if it was not stamped before the window was opened. -/
theorem Window.accept (h : Window o seen s) (ha : (s.accept q t).1 = true)
    (hc : s.verdict q t = .reordered → o ≤ t) :
    ¬ seen q t ∧ Window (if s.verdict q t = .restart then t else o) (Seen seen q t)
      (s.accept q t).2 := by
  rcases s.accept_cases q t with ⟨_, he⟩ | ⟨hv, hs, hg, he⟩ | ⟨hv, hs, hg, he⟩ |
    ⟨hv, hs, hg, hm, hw, he⟩
  · rw [he] at ha
    cases ha
  · have ho : s.stampAtMax ≤ t := by
      rw [← s.level]
      exact Nat.le_of_not_lt hg
    rw [he, hv, if_neg (by decide)]
    constructor
    · intro hq
      have hle := h.tracks.le q ⟨t, Nat.le_trans h.opened ho, hq⟩
      exact absurd hs (Nat.not_lt.2 hle)
    · exact h.join (Nat.le_trans h.opened ho) ho (Nat.le_refl t) (h.tracks.advanceTo hs hg)
  · rw [he, hv, if_pos rfl]
    refine window_of_lt ?_ rfl (PeerState.Tracks.reset hg)
    intro q' t' hq
    exact Nat.lt_of_le_of_lt (h.le q' t' hq) hg
  · have ho := hc hv
    rw [he, hv, if_neg (by decide)]
    constructor
    · intro hq
      rw [(h.tracks.marked q hs hw).2 ⟨t, ho, hq⟩] at hm
      cases hm
    · exact h.join ho (Nat.le_refl _) hg (h.tracks.mark hs hw)

theorem Window.stale {p : Policy} (h : Window o seen s) (hl : p.live now s = false)
    (hs : seen q t) : t + windowMs p.freshnessWindow < now := by
  have ht := h.le q t hs
  have hn : ¬ now ≤ s.stampAtMax + windowMs p.freshnessWindow := by
    rw [← p.live_iff, hl]
    exact Bool.false_ne_true
  omega

namespace Receiver

variable {K : Type} [DecidableEq K]

def admitted (r : Receiver K) (k : K) (q t : Nat) : Prop := (k, q, t) ∈ r.accepted

/-- A datagram accepted behind the high water is not stamped before the one that opened its
sender's window. -/
def current (p : Policy) (r : Receiver K) (d : Delivery K) : Bool :=
  match r.window? p d with
  | some s =>
    !(r.check p d).1 || s.verdict d.seq d.stamp != .reordered || r.opened d.sender ≤ d.stamp
  | none => true

structure At (p : Policy) (r : Receiver K) (k : K) : Prop where
  window : ∀ s, r.peers.lookup k = some s → Window (r.opened k) (r.admitted k) s
  stale : r.peers.lookup k = none → ∀ q t, r.admitted k q t → t + windowMs p.freshnessWindow < r.now

structure Inv (p : Policy) (r : Receiver K) : Prop where
  distinct : r.accepted.Nodup
  sender : ∀ k, r.At p k

variable {p : Policy} {r r' : Receiver K} {d : Delivery K}

theorem inv_empty : ({} : Receiver K).Inv p := by
  constructor
  · exact List.nodup_nil
  · intro k
    constructor
    · intro s hs
      cases hs
    · intro _ q t hs
      cases hs

theorem At.kept {k : K} (h : r.At p k) (hn : r.now ≤ r'.now) (ho : r'.opened k = r.opened k)
    (hs : r'.admitted k = r.admitted k) (hk : Kept p r'.now r.peers r'.peers k) : r'.At p k := by
  rcases hk with hk | ⟨hk, s, hls, hl⟩
  · constructor
    · intro s hls
      rw [ho, hs]
      exact h.window s (hk ▸ hls)
    · intro hls q t hqt
      rw [hs] at hqt
      exact Nat.lt_of_lt_of_le (h.stale (hk ▸ hls) q t hqt) hn
  · constructor
    · intro s' hls'
      rw [hk] at hls'
      cases hls'
    · intro _ q t hqt
      rw [hs] at hqt
      exact (h.window s hls).stale hl hqt

theorem At.lt_of_fresh (h : r.At p d.sender) (hn : r.now ≤ d.now) (hw : r.window? p d = none)
    (hf : isFresh d.stamp d.now p.freshnessWindow = true) (hs : r.admitted d.sender q t) :
    t < d.stamp := by
  have hstale : t + windowMs p.freshnessWindow < d.now := by
    cases hl : r.peers.lookup d.sender with
    | none => exact Nat.lt_of_lt_of_le (h.stale hl q t hs) hn
    | some s => exact (h.window s hl).stale (live_of_window?_eq_none hw hl) hs
  have hf := ((isFresh_iff _ _ _).1 hf).1
  omega

theorem step_eq_some (h : r.step p d = some r') : r.now ≤ d.now ∧ r' = r.after p d := by
  rw [step] at h
  split at h
  · next hn => exact ⟨hn, (Option.some.inj h).symm⟩
  · cases h

theorem after_rejected (ha : (r.check p d).1 = false) (k : K) :
    (r.after p d).opened k = r.opened k ∧ (r.after p d).admitted k = r.admitted k := by
  constructor
  · simp only [after, ha, Bool.false_eq_true, false_and, and_false, ↓reduceIte]
  · funext q t
    simp only [after, admitted, ha, Bool.false_eq_true, ↓reduceIte]

theorem after_other {k : K} (hk : k ≠ d.sender) :
    (r.after p d).opened k = r.opened k ∧ (r.after p d).admitted k = r.admitted k := by
  constructor
  · simp only [after, hk, false_and, ↓reduceIte]
  · funext q t
    simp only [after, admitted]
    split
    · simp only [List.mem_cons, Prod.mk.injEq, hk, false_and, false_or]
    · rfl

theorem after_sender (ha : (r.check p d).1 = true) :
    (r.after p d).opened d.sender = (if r.opens p d then d.stamp else r.opened d.sender) ∧
      (r.after p d).admitted d.sender = Seen (r.admitted d.sender) d.seq d.stamp := by
  constructor
  · simp only [after, ha, true_and]
  · funext q t
    simp only [after, admitted, ha, ↓reduceIte, List.mem_cons, Prod.mk.injEq, true_and, Seen]

theorem current_iff {s : PeerState} (hw : r.window? p d = some s) (ha : (r.check p d).1 = true) :
    r.current p d = true ↔ (s.verdict d.seq d.stamp = .reordered → r.opened d.sender ≤ d.stamp) := by
  simp only [current, hw, ha, Bool.not_true, Bool.false_or, Bool.or_eq_true, bne_iff_ne, ne_eq,
    decide_eq_true_eq]
  exact Decidable.imp_iff_not_or.symm

theorem At.accept (h : r.At p d.sender) (hn : r.now ≤ d.now) (ha : (r.check p d).1 = true)
    (hc : r.current p d = true) :
    ¬ r.admitted d.sender d.seq d.stamp ∧ ∃ s, (r.check p d).2.lookup d.sender = some s ∧
      Window (if r.opens p d then d.stamp else r.opened d.sender)
        (Seen (r.admitted d.sender) d.seq d.stamp) s := by
  rcases check_cases p r d with ⟨hr, _⟩ | ⟨_, hf, hw, hl⟩ | ⟨_, s, hw, hs, hl⟩
  · rw [hr] at ha
    cases ha
  · have hlt : ∀ q t, r.admitted d.sender q t → t < d.stamp :=
      fun q t hqt => h.lt_of_fresh hn hw hf hqt
    obtain ⟨hnot, hwin⟩ := window_of_lt hlt rfl (PeerState.tracks_new d.seq d.stamp)
    refine ⟨hnot, _, hl, ?_⟩
    rw [opens, hw]
    exact hwin
  · have hwin := h.window s (window?_eq_some hw).1
    obtain ⟨hnot, hwin'⟩ := hwin.accept hs ((current_iff hw ha).1 hc)
    refine ⟨hnot, _, hl, ?_⟩
    rw [opens, hw]
    simpa only [decide_eq_true_eq] using hwin'

theorem At.after (h : r.Inv p) (hn : r.now ≤ d.now) (hc : r.current p d = true) (k : K) :
    (r.after p d).At p k := by
  by_cases hk : k = d.sender
  · subst hk
    cases ha : (r.check p d).1 with
    | false =>
      obtain ⟨ho, hs⟩ := after_rejected ha d.sender
      exact (h.sender d.sender).kept hn ho hs (check_kept_of_rejected ha)
    | true =>
      obtain ⟨_, s, hl, hwin⟩ := (h.sender d.sender).accept hn ha hc
      obtain ⟨ho, hs⟩ := after_sender ha
      constructor
      · intro s' hs'
        cases hl.symm.trans hs'
        rw [ho, hs]
        exact hwin
      · intro hnone
        cases hl.symm.trans hnone
  · obtain ⟨ho, hs⟩ := @after_other _ _ p r d k hk
    exact (h.sender k).kept hn ho hs (check_kept hk)

theorem Inv.step (h : r.Inv p) (hs : r.step p d = some r') (hc : r.current p d = true) :
    r'.Inv p := by
  obtain ⟨hn, rfl⟩ := step_eq_some hs
  constructor
  · rw [Receiver.after]
    cases ha : (r.check p d).1 with
    | false => exact h.distinct
    | true =>
      obtain ⟨hnot, _⟩ := (h.sender d.sender).accept hn ha hc
      exact List.nodup_cons.2 ⟨hnot, h.distinct⟩
  · exact At.after h hn hc

/-- No datagram is accepted twice, in a run where none is accepted behind the high water that was
stamped before its sender's window was opened. -/
theorem accepted_nodup {ds : List (Delivery K)} (hr : Runs (step p) {} ds r)
    (hc : EachStep (step p) (fun r d _ => r.current p d = true) {} ds) : r.accepted.Nodup := by
  have hi : r.Inv p := hr.invariant_of (fun _ r => r.Inv p) inv_empty
    (fun _ _ _ _ hi hs ho => hi.step hs ho) hc
  exact hi.distinct

def fiveMinutes : Policy := ⟨300000000000, 8⟩

/-- A sender restarts at sequence number 3; both of its old datagrams are then replayed. -/
def restarted : List (Delivery Nat) :=
  [⟨0, 10, 100, 100⟩, ⟨0, 9, 100, 100⟩, ⟨0, 3, 200, 200⟩, ⟨0, 10, 100, 200⟩, ⟨0, 9, 100, 200⟩]

theorem accepted_nodup_restarted : ∃ r, Runs (step fiveMinutes) {} restarted r ∧
    r.accepted = [(0, 3, 200), (0, 9, 100), (0, 10, 100)] ∧ r.accepted.Nodup := by
  have h : (runAll (step fiveMinutes) {} restarted).map Receiver.accepted =
      some [(0, 3, 200), (0, 9, 100), (0, 10, 100)] := by
    decide +kernel
  obtain ⟨r, hr, ha⟩ := Option.map_eq_some_iff.1 h
  have hc : checkAll (step fiveMinutes) (current fiveMinutes) {} restarted = true := by
    decide +kernel
  exact ⟨r, runs_of_runAll hr, ha,
    accepted_nodup (runs_of_runAll hr) (eachStep_of_checkAll hc)⟩

/-- A datagram accepted out of order, then a restart below its window, then the datagram again. -/
def restartReplay : List (Delivery Nat) :=
  [⟨0, 10, 100, 100⟩, ⟨0, 5, 50, 100⟩, ⟨0, 7, 200, 200⟩, ⟨0, 5, 50, 200⟩]

theorem accepted_twice : ∃ r, Runs (step fiveMinutes) {} restartReplay r ∧
    r.accepted = [(0, 5, 50), (0, 7, 200), (0, 5, 50), (0, 10, 100)] ∧ ¬ r.accepted.Nodup := by
  have h : (runAll (step fiveMinutes) {} restartReplay).map Receiver.accepted =
      some [(0, 5, 50), (0, 7, 200), (0, 5, 50), (0, 10, 100)] := by
    decide +kernel
  obtain ⟨r, hr, ha⟩ := Option.map_eq_some_iff.1 h
  refine ⟨r, runs_of_runAll hr, ha, ?_⟩
  rw [ha]
  decide

end Receiver

end Reconcile.Replay
