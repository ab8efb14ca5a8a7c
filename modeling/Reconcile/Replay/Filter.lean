import Reconcile.Lib.HashMap
import Reconcile.Lib.Transition
import Reconcile.Replay.PeerState

namespace Reconcile.Replay
open Lib
set_option autoImplicit true

/-- `Duration::as_millis() as u64` of a duration in nanoseconds. -/
def windowMs (freshnessWindow : Nat) : Nat := freshnessWindow / 1000000 % 2 ^ 64

def ageRelativeTo (stamp now : Nat) : Nat := now - stamp

def isFresh (stamp now freshnessWindow : Nat) : Bool :=
  ageRelativeTo stamp now ≤ windowMs freshnessWindow &&
    ageRelativeTo now stamp ≤ windowMs freshnessWindow

structure Policy where
  freshnessWindow : Nat
  maxSenders : Nat

def Policy.live (p : Policy) (now : Nat) (s : PeerState) : Bool :=
  ageRelativeTo s.stampAtMax now ≤ windowMs p.freshnessWindow

theorem isFresh_iff (stamp now freshnessWindow : Nat) :
    isFresh stamp now freshnessWindow = true ↔
      now ≤ stamp + windowMs freshnessWindow ∧ stamp ≤ now + windowMs freshnessWindow := by
  rw [isFresh, Bool.and_eq_true, decide_eq_true_eq, decide_eq_true_eq, ageRelativeTo,
    ageRelativeTo]
  omega

theorem Policy.live_iff (p : Policy) (now : Nat) (s : PeerState) :
    p.live now s = true ↔ now ≤ s.stampAtMax + windowMs p.freshnessWindow := by
  rw [live, decide_eq_true_eq, ageRelativeTo]
  omega

variable {K : Type} [DecidableEq K]

/-- The capacity check for a sender without a window, and the window it gets. -/
def admitSender (p : Policy) (map : HashMap K PeerState) (sender : K) (seq stamp now : Nat) :
    Bool × HashMap K PeerState :=
  if p.maxSenders ≤ map.len then
    if p.maxSenders ≤ (map.retain (p.live now)).len then (false, map.retain (p.live now))
    else (true, (map.retain (p.live now)).insert sender (.new seq stamp))
  else (true, map.insert sender (.new seq stamp))

def checkAndRecordSender (p : Policy) (map : HashMap K PeerState) (sender : K)
    (seq stamp now : Nat) : Bool × HashMap K PeerState :=
  if isFresh stamp now p.freshnessWindow then
    match map.lookup sender with
    | some state =>
      if p.live now state then
        let accepted := state.accept seq stamp
        (accepted.1, map.insert sender accepted.2)
      else admitSender p (map.erase sender) sender seq stamp now
    | none => admitSender p map sender seq stamp now
  else (false, map)

def Kept (p : Policy) (now : Nat) (m m' : HashMap K PeerState) (k : K) : Prop :=
  m'.lookup k = m.lookup k ∨
    (m'.lookup k = none ∧ ∃ s, m.lookup k = some s ∧ p.live now s = false)

theorem kept_retain (p : Policy) (now : Nat) (m : HashMap K PeerState) (k : K) :
    Kept p now m (m.retain (p.live now)) k := by
  rw [Kept, HashMap.lookup_retain]
  cases h : m.lookup k with
  | none => exact .inl rfl
  | some s =>
    cases hl : p.live now s with
    | true => exact .inl (Option.filter_some_pos hl)
    | false => exact .inr ⟨Option.filter_some_neg hl, s, rfl, hl⟩

theorem Kept.congr {p : Policy} {m m₁ m₂ : HashMap K PeerState} {k : K} (h : Kept p now m m₁ k)
    (he : m₂.lookup k = m₁.lookup k) : Kept p now m m₂ k := by
  rw [Kept, he]
  exact h

theorem admitSender_kept (p : Policy) (map : HashMap K PeerState) (sender : K)
    (seq stamp now : Nat) {k : K} (hk : k ≠ sender) :
    Kept p now map (admitSender p map sender seq stamp now).2 k := by
  rw [admitSender]
  split
  · split
    · exact kept_retain p now map k
    · exact (kept_retain p now map k).congr (AList.lookup_insert_ne hk)
  · exact .inl (AList.lookup_insert_ne hk)

theorem admitSender_sender (p : Policy) {map : HashMap K PeerState} {sender : K}
    (seq stamp now : Nat) (h : map.lookup sender = none) :
    ((admitSender p map sender seq stamp now).1 = false ∧
      (admitSender p map sender seq stamp now).2.lookup sender = none) ∨
    ((admitSender p map sender seq stamp now).1 = true ∧
      (admitSender p map sender seq stamp now).2.lookup sender = some (.new seq stamp)) := by
  rw [admitSender]
  split
  · split
    · left
      refine ⟨rfl, ?_⟩
      rw [HashMap.lookup_retain, h]
      rfl
    · exact .inr ⟨rfl, AList.lookup_insert _⟩
  · exact .inr ⟨rfl, AList.lookup_insert _⟩

structure Delivery (K : Type) where
  sender : K
  seq : Nat
  stamp : Nat
  now : Nat

/-- A filter with what it has accepted so far. `opened` is, for each sender, the stamp of the
datagram that opened its current window. -/
structure Receiver (K : Type) where
  peers : HashMap K PeerState := ∅
  now : Nat := 0
  opened : K → Nat := fun _ => 0
  accepted : List (K × Nat × Nat) := []

namespace Receiver

variable (p : Policy) (r : Receiver K) (d : Delivery K)

def check : Bool × HashMap K PeerState :=
  checkAndRecordSender p r.peers d.sender d.seq d.stamp d.now

def window? : Option PeerState := (r.peers.lookup d.sender).filter (p.live d.now)

/-- An accepted datagram opens a window when its sender has none, or restarts it. -/
def opens : Bool :=
  match r.window? p d with
  | some s => s.verdict d.seq d.stamp = .restart
  | none => true

def after : Receiver K where
  peers := (r.check p d).2
  now := d.now
  opened k :=
    if k = d.sender ∧ (r.check p d).1 = true ∧ r.opens p d = true then d.stamp else r.opened k
  accepted := if (r.check p d).1 then (d.sender, d.seq, d.stamp) :: r.accepted else r.accepted

def step : Option (Receiver K) := if r.now ≤ d.now then some (r.after p d) else none

variable {p : Policy} {r : Receiver K} {d : Delivery K}

theorem window?_eq_some {s : PeerState} (h : r.window? p d = some s) :
    r.peers.lookup d.sender = some s ∧ p.live d.now s = true :=
  Option.filter_eq_some_iff.1 h

theorem live_of_window?_eq_none {s : PeerState} (h : r.window? p d = none)
    (hs : r.peers.lookup d.sender = some s) : p.live d.now s = false := by
  rw [window?, hs, Option.filter_eq_none_iff] at h
  exact Bool.eq_false_iff.2 (h s rfl)

theorem check_of_window {s : PeerState} (hf : isFresh d.stamp d.now p.freshnessWindow = true)
    (hw : r.window? p d = some s) :
    r.check p d =
      ((s.accept d.seq d.stamp).1, r.peers.insert d.sender (s.accept d.seq d.stamp).2) := by
  obtain ⟨hs, hl⟩ := window?_eq_some hw
  rw [check, checkAndRecordSender, if_pos hf, hs]
  exact if_pos hl

theorem check_of_none (hf : isFresh d.stamp d.now p.freshnessWindow = true)
    (hw : r.window? p d = none) :
    ∃ m : HashMap K PeerState, m.lookup d.sender = none ∧
      (∀ k ≠ d.sender, m.lookup k = r.peers.lookup k) ∧
      r.check p d = admitSender p m d.sender d.seq d.stamp d.now := by
  rw [check, checkAndRecordSender, if_pos hf]
  cases hs : r.peers.lookup d.sender with
  | none => exact ⟨r.peers, hs, fun _ _ => rfl, rfl⟩
  | some s =>
    refine ⟨r.peers.erase d.sender, AList.lookup_erase _ _,
      fun k hk => AList.lookup_erase_ne hk, ?_⟩
    have hl := live_of_window?_eq_none hw hs
    simp only [hl, Bool.false_eq_true, ↓reduceIte]

/-- The other senders' windows are kept, or dropped once they have expired. -/
theorem check_kept {k : K} (hk : k ≠ d.sender) : Kept p d.now r.peers (r.check p d).2 k := by
  by_cases hf : isFresh d.stamp d.now p.freshnessWindow = true
  · cases hw : r.window? p d with
    | some s =>
      rw [check_of_window hf hw]
      exact .inl (AList.lookup_insert_ne hk)
    | none =>
      obtain ⟨m, _, ho, hc⟩ := check_of_none hf hw
      rw [hc, Kept, ← ho k hk]
      exact admitSender_kept p m d.sender d.seq d.stamp d.now hk
  · rw [check, checkAndRecordSender, if_neg hf]
    exact .inl rfl

theorem check_cases (p : Policy) (r : Receiver K) (d : Delivery K) :
    ((r.check p d).1 = false ∧ Kept p d.now r.peers (r.check p d).2 d.sender) ∨
    ((r.check p d).1 = true ∧ isFresh d.stamp d.now p.freshnessWindow = true ∧
      r.window? p d = none ∧
      (r.check p d).2.lookup d.sender = some (.new d.seq d.stamp)) ∨
    ((r.check p d).1 = true ∧ ∃ s, r.window? p d = some s ∧
      (s.accept d.seq d.stamp).1 = true ∧
      (r.check p d).2.lookup d.sender = some (s.accept d.seq d.stamp).2) := by
  by_cases hf : isFresh d.stamp d.now p.freshnessWindow = true
  · cases hw : r.window? p d with
    | some s =>
      rw [check_of_window hf hw]
      rcases s.accept_cases d.seq d.stamp with ⟨_, ha⟩ | ⟨_, _, _, ha⟩ | ⟨_, _, _, ha⟩ | ⟨_, _, _, _, _, ha⟩
      · left
        rw [ha]
        refine ⟨rfl, .inl ?_⟩
        rw [AList.lookup_insert, (window?_eq_some hw).1]
      all_goals
        rw [ha]
        exact .inr (.inr ⟨rfl, s, rfl, by rw [ha], by rw [ha]; exact AList.lookup_insert _⟩)
    | none =>
      obtain ⟨m, hm, _, hc⟩ := check_of_none hf hw
      rw [hc]
      rcases admitSender_sender p d.seq d.stamp d.now hm with ⟨hr, hl⟩ | ⟨hr, hl⟩
      · left
        refine ⟨hr, ?_⟩
        cases hs : r.peers.lookup d.sender with
        | none => exact .inl (hl.trans hs.symm)
        | some s => exact .inr ⟨hl, s, hs, live_of_window?_eq_none hw hs⟩
      · exact .inr (.inl ⟨hr, hf, rfl, hl⟩)
  · rw [check, checkAndRecordSender, if_neg hf]
    exact .inl ⟨rfl, .inl rfl⟩

theorem check_kept_of_rejected (h : (r.check p d).1 = false) :
    Kept p d.now r.peers (r.check p d).2 d.sender := by
  rcases check_cases p r d with ⟨_, hk⟩ | ⟨ht, _⟩ | ⟨ht, _⟩
  · exact hk
  · cases h.symm.trans ht
  · cases h.symm.trans ht

end Receiver

end Reconcile.Replay
