import Reconcile.Replay.Bitmap

namespace Reconcile.Replay
open Lib
set_option autoImplicit true

/-- The replay state of one sender. Both stamps move together: the tail guard's high-water mark
is the stamp of the greatest accepted sequence number. -/
structure PeerState where
  maxSeq : Nat
  stampAtMax : Nat
  maxStampSeen : Nat
  bitmap : SlidingBitmap
  level : maxStampSeen = stampAtMax

namespace PeerState

def new (firstSeq firstStamp : Nat) : PeerState where
  maxSeq := firstSeq
  stampAtMax := firstStamp
  maxStampSeen := firstStamp
  bitmap := .new
  level := rfl

/-- The window of a restarted sender; `max_stamp_seen` is never rewound. -/
def reset (s : PeerState) (newSeq newStamp : Nat) (h : s.stampAtMax < newStamp) : PeerState where
  maxSeq := newSeq
  stampAtMax := newStamp
  maxStampSeen := max s.maxStampSeen newStamp
  bitmap := .new
  level := by rw [s.level, Nat.max_eq_right (Nat.le_of_lt h)]

def advanceTo (s : PeerState) (seq stamp : Nat) (h : ¬ stamp < s.maxStampSeen) : PeerState where
  maxSeq := seq
  stampAtMax := stamp
  maxStampSeen := max s.maxStampSeen stamp
  bitmap := s.bitmap.advance (seq - s.maxSeq)
  level := Nat.max_eq_right (Nat.le_of_not_lt h)

def accept (s : PeerState) (seq stamp : Nat) : Bool × PeerState :=
  if s.maxSeq < seq then
    if h : stamp < s.maxStampSeen then (false, s)
    else (true, s.advanceTo seq stamp h)
  else if h : s.stampAtMax < stamp then (true, s.reset seq stamp h)
  else if h : windowSize ≤ s.maxSeq - seq then (false, s)
  else if s.bitmap.isMarked (s.maxSeq - seq) then (false, s)
  else (true, { s with bitmap := s.bitmap.mark (s.maxSeq - seq) (Nat.lt_of_not_le h) })

inductive Verdict where
  | tailGuard
  | advance
  | restart
  | tooOld
  | duplicate
  | reordered
  deriving DecidableEq, Repr

def Verdict.accepts : Verdict → Bool
  | .advance | .restart | .reordered => true
  | .tailGuard | .tooOld | .duplicate => false

def verdict (s : PeerState) (seq stamp : Nat) : Verdict :=
  if s.maxSeq < seq then if stamp < s.maxStampSeen then .tailGuard else .advance
  else if s.stampAtMax < stamp then .restart
  else if windowSize ≤ s.maxSeq - seq then .tooOld
  else if s.bitmap.isMarked (s.maxSeq - seq) then .duplicate
  else .reordered

theorem accept_cases (s : PeerState) (seq stamp : Nat) :
    ((s.verdict seq stamp).accepts = false ∧ s.accept seq stamp = (false, s)) ∨
    (s.verdict seq stamp = .advance ∧ s.maxSeq < seq ∧
      ∃ h : ¬ stamp < s.maxStampSeen, s.accept seq stamp = (true, s.advanceTo seq stamp h)) ∨
    (s.verdict seq stamp = .restart ∧ seq ≤ s.maxSeq ∧
      ∃ h : s.stampAtMax < stamp, s.accept seq stamp = (true, s.reset seq stamp h)) ∨
    (s.verdict seq stamp = .reordered ∧ seq ≤ s.maxSeq ∧ stamp ≤ s.stampAtMax ∧
      s.bitmap.isMarked (s.maxSeq - seq) = false ∧ ∃ h : s.maxSeq - seq < windowSize,
        s.accept seq stamp = (true, { s with bitmap := s.bitmap.mark (s.maxSeq - seq) h })) := by
  rw [accept, verdict]
  split
  · next hs =>
    split
    · exact .inl ⟨rfl, rfl⟩
    · next h => exact .inr (.inl ⟨rfl, hs, h, rfl⟩)
  · next hs =>
    have hs : seq ≤ s.maxSeq := Nat.le_of_not_lt hs
    split
    · next h => exact .inr (.inr (.inl ⟨rfl, hs, h, rfl⟩))
    · next h =>
      split
      · exact .inl ⟨rfl, rfl⟩
      · next hw =>
        split
        · exact .inl ⟨rfl, rfl⟩
        · next hm =>
          have hm : s.bitmap.isMarked (s.maxSeq - seq) = false := Bool.eq_false_iff.2 hm
          exact .inr (.inr (.inr ⟨rfl, hs, Nat.le_of_not_lt h, hm, Nat.lt_of_not_le hw, rfl⟩))

/-- The bitmap marks, within the window, the members of a set of sequence numbers whose greatest
is the high water. -/
structure Tracks (s : PeerState) (A : Nat → Prop) : Prop where
  high : A s.maxSeq
  le : ∀ q, A q → q ≤ s.maxSeq
  marked : ∀ q ≤ s.maxSeq, s.maxSeq - q < windowSize →
    (s.bitmap.isMarked (s.maxSeq - q) = true ↔ A q)

theorem tracks_new (seq stamp : Nat) : (new seq stamp).Tracks (· = seq) := by
  constructor
  · rfl
  · intro q hq
    exact Nat.le_of_eq hq
  · intro q hq _
    have hq : q ≤ seq := hq
    simp only [new, SlidingBitmap.isMarked_new, decide_eq_true_eq]
    omega

variable {s : PeerState} {A B : Nat → Prop} {seq stamp : Nat}

theorem Tracks.congr (h : s.Tracks A) (hA : ∀ q, A q ↔ B q) : s.Tracks B := by
  have he : A = B := funext fun q => propext (hA q)
  exact he ▸ h

theorem Tracks.reset (h : s.stampAtMax < stamp) : (s.reset seq stamp h).Tracks (· = seq) := by
  obtain ⟨hh, hl, hm⟩ := tracks_new seq stamp
  exact ⟨hh, hl, hm⟩

theorem Tracks.advanceTo (ht : s.Tracks A) (hs : s.maxSeq < seq) (h : ¬ stamp < s.maxStampSeen) :
    (s.advanceTo seq stamp h).Tracks (fun q => q = seq ∨ A q) := by
  constructor
  · exact .inl rfl
  · intro q hq
    rcases hq with rfl | hq
    · exact Nat.le_refl _
    · exact Nat.le_trans (ht.le q hq) (Nat.le_of_lt hs)
  · intro q hq hw
    have hq : q ≤ seq := hq
    have hw : seq - q < windowSize := hw
    simp only [PeerState.advanceTo, SlidingBitmap.isMarked_advance _ _ hw, Bool.or_eq_true,
      Bool.and_eq_true, decide_eq_true_eq]
    by_cases hqs : q ≤ s.maxSeq
    · have he : seq - q - (seq - s.maxSeq) = s.maxSeq - q := by omega
      rw [he, ht.marked q hqs (by omega)]
      constructor
      · intro hc
        rcases hc with hc | hc
        · exact .inl (by omega)
        · exact .inr hc.2
      · intro hc
        rcases hc with hc | hc
        · exact .inl (by omega)
        · exact .inr ⟨by omega, hc⟩
    · constructor
      · intro hc
        exact .inl (by omega)
      · intro hc
        rcases hc with hc | hc
        · exact .inl (by omega)
        · exact absurd (ht.le q hc) hqs

theorem Tracks.mark (ht : s.Tracks A) (hs : seq ≤ s.maxSeq) (h : s.maxSeq - seq < windowSize) :
    ({ s with bitmap := s.bitmap.mark (s.maxSeq - seq) h } : PeerState).Tracks
      (fun q => q = seq ∨ A q) := by
  constructor
  · exact .inr ht.high
  · intro q hq
    rcases hq with rfl | hq
    · exact hs
    · exact ht.le q hq
  · intro q hq hw
    have hq : q ≤ s.maxSeq := hq
    have hw : s.maxSeq - q < windowSize := hw
    simp only [SlidingBitmap.isMarked_mark, Bool.or_eq_true, decide_eq_true_eq]
    rw [ht.marked q hq hw]
    constructor
    · intro hc
      rcases hc with hc | hc
      · exact .inl (by omega)
      · exact .inr hc
    · intro hc
      rcases hc with hc | hc
      · exact .inl (by omega)
      · exact .inr hc

end PeerState

end Reconcile.Replay
