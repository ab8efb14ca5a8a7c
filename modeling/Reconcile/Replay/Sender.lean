import Mathlib.Algebra.Order.Ring.Nat
import Reconcile.Lib.Transition
import Reconcile.Replay.PeerState

namespace Reconcile.Replay
open Lib
set_option autoImplicit true

structure SenderCounter where
  seq : Nat := 1
  stampFloor : Nat := 0

namespace SenderCounter

def nextSeq (c : SenderCounter) : Nat × SenderCounter :=
  (c.seq, { c with seq := (c.seq + 1) % 2 ^ 64 })

def nextStampAt (c : SenderCounter) (nowMs : Nat) : Nat × SenderCounter :=
  (max c.stampFloor nowMs, { c with stampFloor := max c.stampFloor nowMs })

end SenderCounter

/-- The send tasks of one process: those that have allocated a sequence number but no stamp yet,
and the pairs minted so far. -/
structure Senders where
  counter : SenderCounter := {}
  sending : List Nat := []
  minted : List (Nat × Nat) := []

namespace Senders

inductive Event where
  | nextSeq
  | nextStamp (i nowMs : Nat)

def step (c : Senders) : Event → Option Senders
  | .nextSeq =>
    some { c with
      counter := c.counter.nextSeq.2
      sending := c.sending ++ [c.counter.nextSeq.1] }
  | .nextStamp i nowMs =>
    match c.sending[i]? with
    | some seq =>
      some {
        counter := (c.counter.nextStampAt nowMs).2
        sending := c.sending.eraseIdx i
        minted := (seq, (c.counter.nextStampAt nowMs).1) :: c.minted }
    | none => none

/-- A task that mints its stamp after a later sequence number got its own does so while the floor
is where that left it, and at a clock reading no later. -/
def inOrder (c : Senders) : Event → Bool
  | .nextSeq => true
  | .nextStamp i nowMs =>
    match c.sending[i]? with
    | some seq =>
      c.minted.all fun m => m.1 ≤ seq || (c.counter.stampFloor ≤ m.2 && nowMs ≤ m.2)
    | none => true

def Monotone (minted : List (Nat × Nat)) : Prop :=
  ∀ a ∈ minted, ∀ b ∈ minted, a.1 < b.1 → a.2 ≤ b.2

def verdicts : PeerState → List (Nat × Nat) → List PeerState.Verdict
  | _, [] => []
  | s, m :: ms => s.verdict m.1 m.2 :: verdicts (s.accept m.1 m.2).2 ms

/-- Delivered by increasing sequence number, every datagram after the first advances the window:
none meets the tail guard and none counts as a restart. -/
def Advances (minted : List (Nat × Nat)) : Prop :=
  ∀ m ms, (m :: ms).Pairwise (fun a b => a.1 < b.1) → (∀ a ∈ m :: ms, a ∈ minted) →
    ∀ v ∈ verdicts (.new m.1 m.2) ms, v = .advance

theorem verdicts_advance {s : PeerState} {ms : List (Nat × Nat)}
    (hp : ms.Pairwise fun a b => a.1 < b.1 ∧ a.2 ≤ b.2)
    (hs : ∀ a ∈ ms, s.maxSeq < a.1 ∧ s.stampAtMax ≤ a.2) :
    ∀ v ∈ verdicts s ms, v = .advance := by
  induction ms generalizing s with
  | nil =>
    intro v hv
    cases hv
  | cons m ms ih =>
    obtain ⟨hm, hp⟩ := List.pairwise_cons.1 hp
    obtain ⟨hlt, hle⟩ := hs m List.mem_cons_self
    have hg : ¬ m.2 < s.maxStampSeen := by
      rw [s.level]
      exact Nat.not_lt.2 hle
    have hv : s.verdict m.1 m.2 = .advance := by
      rw [PeerState.verdict, if_pos hlt, if_neg hg]
    have ha : s.accept m.1 m.2 = (true, s.advanceTo m.1 m.2 hg) := by
      rw [PeerState.accept, if_pos hlt, dif_neg hg]
    intro v hmem
    rw [verdicts, hv, ha] at hmem
    rcases List.mem_cons.1 hmem with rfl | hmem
    · rfl
    · exact ih hp hm v hmem

theorem Monotone.advances {minted : List (Nat × Nat)} (h : Monotone minted) : Advances minted := by
  intro m ms hp hmem
  have hp' : (m :: ms).Pairwise fun a b => a.1 < b.1 ∧ a.2 ≤ b.2 :=
    hp.imp_of_mem fun ha hb hlt => ⟨hlt, h _ (hmem _ ha) _ (hmem _ hb) hlt⟩
  obtain ⟨hm, hms⟩ := List.pairwise_cons.1 hp'
  exact verdicts_advance hms hm

structure Inv (c : Senders) : Prop where
  floor : ∀ m ∈ c.minted, m.2 ≤ c.counter.stampFloor
  monotone : Monotone c.minted

variable {c c' : Senders}

theorem step_nextStamp (h : c.step (.nextStamp i nowMs) = some c') :
    ∃ seq, c.sending[i]? = some seq ∧ c' = {
      counter := (c.counter.nextStampAt nowMs).2
      sending := c.sending.eraseIdx i
      minted := (seq, (c.counter.nextStampAt nowMs).1) :: c.minted } := by
  rw [step] at h
  split at h
  · next seq hi => exact ⟨seq, hi, (Option.some.inj h).symm⟩
  · cases h

theorem inOrder_nextStamp {seq : Nat} (h : c.sending[i]? = some seq) :
    c.inOrder (.nextStamp i nowMs) = true ↔
      ∀ m ∈ c.minted, seq < m.1 → max c.counter.stampFloor nowMs ≤ m.2 := by
  simp only [inOrder, h, List.all_eq_true, Bool.or_eq_true, Bool.and_eq_true, decide_eq_true_eq]
  constructor
  · intro ho m hm hlt
    rcases ho m hm with hle | ⟨hf, hn⟩
    · exact absurd hlt (Nat.not_lt.2 hle)
    · exact max_le hf hn
  · intro ho m hm
    rcases Nat.lt_or_ge seq m.1 with hlt | hle
    · exact .inr (max_le_iff.1 (ho m hm hlt))
    · exact .inl hle

theorem monotone_cons {minted : List (Nat × Nat)} {seq stamp : Nat}
    (hf : ∀ m ∈ minted, m.2 ≤ stamp) :
    Monotone ((seq, stamp) :: minted) ↔
      Monotone minted ∧ ∀ m ∈ minted, seq < m.1 → stamp ≤ m.2 := by
  constructor
  · intro h
    constructor
    · intro a ha b hb hlt
      exact h a (List.mem_cons_of_mem _ ha) b (List.mem_cons_of_mem _ hb) hlt
    · intro m hm hlt
      exact h _ List.mem_cons_self m (List.mem_cons_of_mem _ hm) hlt
  · intro h a ha b hb hlt
    rcases List.mem_cons.1 ha with rfl | ha
    · rcases List.mem_cons.1 hb with rfl | hb
      · exact Nat.le_refl _
      · exact h.2 b hb hlt
    · rcases List.mem_cons.1 hb with rfl | hb
      · exact hf a ha
      · exact h.1 a ha b hb hlt

theorem Inv.step (h : c.Inv) (hs : c.step ev = some c') :
    (∀ m ∈ c'.minted, m.2 ≤ c'.counter.stampFloor) ∧
      (Monotone c'.minted ↔ c.inOrder ev = true) := by
  cases ev with
  | nextSeq =>
    cases hs
    exact ⟨h.floor, iff_of_true h.monotone rfl⟩
  | nextStamp i nowMs =>
    obtain ⟨seq, hi, rfl⟩ := step_nextStamp hs
    have hf : ∀ m ∈ c.minted, m.2 ≤ max c.counter.stampFloor nowMs :=
      fun m hm => le_trans (h.floor m hm) (le_max_left _ _)
    constructor
    · intro m hm
      rcases List.mem_cons.1 hm with rfl | hm
      · exact Nat.le_refl _
      · exact hf m hm
    · rw [inOrder_nextStamp hi]
      exact (monotone_cons hf).trans (and_iff_right h.monotone)

theorem inv_empty : ({} : Senders).Inv := by
  constructor
  · intro m hm
    cases hm
  · intro a ha
    cases ha

/-- Minted pairs are monotone, and in-order delivery of them always advances the receiver's
window, exactly as long as no task stamps behind a later one with a greater stamp. -/
theorem minted_monotone_iff (es : List Event) :
    EachStep step (fun c ev _ => c.inOrder ev = true) {} es ↔
      EachStep step (fun _ _ c' => Monotone c'.minted ∧ Advances c'.minted) {} es := by
  have hstep : ∀ (P : Senders → Event → Senders → Prop),
      (∀ c ev c', c.Inv → c.step ev = some c' → P c ev c' → Monotone c'.minted) →
      ∀ (_ : List Event) c ev c', c.Inv → c.step ev = some c' → P c ev c' → c'.Inv := by
    intro P hP _ c ev c' hi hs hp
    exact ⟨(hi.step hs).1, hP c ev c' hi hs hp⟩
  constructor
  · intro h
    refine h.of_invariant (fun _ c => c.Inv) inv_empty (hstep _ ?_) ?_
    · intro c ev c' hi hs ho
      exact (hi.step hs).2.2 ho
    · intro _ c ev c' hi hs ho
      have hm := (hi.step hs).2.2 ho
      exact ⟨hm, hm.advances⟩
  · intro h
    refine h.of_invariant (fun _ c => c.Inv) inv_empty (hstep _ ?_) ?_
    · intro c ev c' _ _ hm
      exact hm.1
    · intro _ c ev c' hi hs hm
      exact (hi.step hs).2.1 hm.1

def overtaking : List Event := [.nextSeq, .nextSeq, .nextStamp 1 100, .nextStamp 0 101]

/-- The receiver then drops the second datagram at its tail guard, delivered in order. -/
theorem minted_overtaken : ∃ c, Runs step {} overtaking c ∧ c.minted = [(1, 101), (2, 100)] ∧
    ¬ Monotone c.minted ∧ verdicts (.new 1 101) [(2, 100)] = [.tailGuard] := by
  have h : (runAll step {} overtaking).map Senders.minted = some [(1, 101), (2, 100)] := by decide
  obtain ⟨c, hc, hm⟩ := Option.map_eq_some_iff.1 h
  refine ⟨c, runs_of_runAll hc, hm, ?_, by decide⟩
  rw [hm]
  intro hmono
  exact absurd (hmono (1, 101) (by decide) (2, 100) (by decide) (by decide)) (by decide)

end Senders

end Reconcile.Replay
