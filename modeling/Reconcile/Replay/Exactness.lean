import Reconcile.Replay.Safety

namespace Reconcile.Replay
open Lib
set_option autoImplicit true

/-- The ideal filter, over the unbounded set of accepted sequence numbers: above all of them, or
inside the window of the greatest and not accepted yet. -/
def Admits (A : Nat → Prop) (q : Nat) : Prop :=
  (∀ a, A a → a < q) ∨ (¬ A q ∧ ∃ m, A m ∧ (∀ a, A a → a ≤ m) ∧ m < q + windowSize)

def Lifetime (life : Nat → Nat → Prop) : Prop :=
  ∀ q t q' t', life q t → life q' t' → q ≤ q' → t ≤ t'

namespace PeerState

variable {s : PeerState} {A : Nat → Prop} {life : Nat → Nat → Prop} {q t : Nat}

/-- Within one lifetime neither the tail guard nor the restart rule fires, so a window decides as
the ideal filter. -/
theorem Tracks.accept_iff (h : s.Tracks A) (hl : Lifetime life)
    (hs : life s.maxSeq s.stampAtMax) (hq : life q t) :
    (s.accept q t).1 = true ↔ Admits A q := by
  by_cases hlt : s.maxSeq < q
  · have hg : ¬ t < s.maxStampSeen := by
      rw [s.level, Nat.not_lt]
      exact hl _ _ _ _ hs hq (Nat.le_of_lt hlt)
    rw [accept, if_pos hlt, dif_neg hg]
    exact iff_of_true rfl (.inl fun a ha => Nat.lt_of_le_of_lt (h.le a ha) hlt)
  · have hle : q ≤ s.maxSeq := Nat.le_of_not_lt hlt
    have hr : ¬ s.stampAtMax < t := Nat.not_lt.2 (hl _ _ _ _ hq hs hle)
    rw [accept, if_neg hlt, dif_neg hr]
    have hbelow : ¬ ∀ a, A a → a < q := fun hc => hlt (hc _ h.high)
    by_cases hw : windowSize ≤ s.maxSeq - q
    · rw [dif_pos hw]
      apply iff_of_false Bool.false_ne_true
      intro hc
      rcases hc with hc | ⟨_, m, _, hm, hmq⟩
      · exact hbelow hc
      · have := hm _ h.high
        omega
    · rw [dif_neg hw]
      have hmark := h.marked q hle (Nat.lt_of_not_le hw)
      cases hb : s.bitmap.isMarked (s.maxSeq - q) with
      | true =>
        rw [if_pos rfl]
        apply iff_of_false Bool.false_ne_true
        intro hc
        rcases hc with hc | ⟨hn, _⟩
        · exact hbelow hc
        · exact hn (hmark.1 hb)
      | false =>
        rw [if_neg Bool.false_ne_true]
        apply iff_of_true rfl
        right
        constructor
        · intro hA
          rw [hmark.2 hA] at hb
          cases hb
        · exact ⟨s.maxSeq, h.high, h.le, by omega⟩

theorem Tracks.accept (h : s.Tracks A) (hl : Lifetime life) (hs : life s.maxSeq s.stampAtMax)
    (hq : life q t) (ha : (s.accept q t).1 = true) :
    (s.accept q t).2.Tracks (fun q' => q' = q ∨ A q') ∧
      life (s.accept q t).2.maxSeq (s.accept q t).2.stampAtMax := by
  rcases s.accept_cases q t with ⟨_, he⟩ | ⟨_, hlt, hg, he⟩ | ⟨_, hle, hg, he⟩ |
    ⟨_, hle, _, _, hw, he⟩
  · rw [he] at ha
    cases ha
  · rw [he]
    exact ⟨h.advanceTo hlt hg, hq⟩
  · exact absurd hg (Nat.not_lt.2 (hl _ _ _ _ hq hs hle))
  · rw [he]
    exact ⟨h.mark hle hw, hs⟩

end PeerState

namespace Receiver

variable {K : Type} [DecidableEq K]

def hasRoom (p : Policy) (r : Receiver K) (now : Nat) : Bool :=
  r.peers.len < p.maxSenders || (r.peers.retain (p.live now)).len < p.maxSenders

/-- A delivery that leaves the sender `k` undisturbed: its window has not expired, and its own
datagrams are of its lifetime, fresh, and not turned away for lack of capacity. -/
def Undisturbed (p : Policy) (k : K) (life : Nat → Nat → Prop) (r : Receiver K) (d : Delivery K) :
    Prop :=
  (r.peers.lookup k).all (p.live d.now) = true ∧
    (d.sender = k → life d.seq d.stamp ∧ isFresh d.stamp d.now p.freshnessWindow = true ∧
      ((r.peers.lookup k).isSome = true ∨ r.hasRoom p d.now = true))

instance (p : Policy) (k : K) (life : Nat → Nat → Prop) [∀ q t, Decidable (life q t)]
    (r : Receiver K) (d : Delivery K) : Decidable (Undisturbed p k life r d) :=
  inferInstanceAs (Decidable (_ ∧ _))

def seqs (r : Receiver K) (k : K) (q : Nat) : Prop := ∃ t, r.admitted k q t

structure Follows (k : K) (life : Nat → Nat → Prop) (r : Receiver K) : Prop where
  untracked : r.peers.lookup k = none → ∀ q, ¬ r.seqs k q
  tracked : ∀ s, r.peers.lookup k = some s →
    s.Tracks (r.seqs k) ∧ life s.maxSeq s.stampAtMax

variable {p : Policy} {r r' : Receiver K} {d : Delivery K} {k : K} {life : Nat → Nat → Prop}

theorem check_of_room (hf : isFresh d.stamp d.now p.freshnessWindow = true)
    (hn : r.peers.lookup d.sender = none) (hr : r.hasRoom p d.now = true) :
    (r.check p d).1 = true := by
  rw [hasRoom, Bool.or_eq_true, decide_eq_true_eq, decide_eq_true_eq] at hr
  rw [check, checkAndRecordSender, if_pos hf, hn]
  simp only [admitSender]
  by_cases hl : p.maxSenders ≤ r.peers.len
  · have hk : ¬ p.maxSenders ≤ (r.peers.retain (p.live d.now)).len := by omega
    rw [if_pos hl, if_neg hk]
  · rw [if_neg hl]

theorem Undisturbed.check_iff (h : Undisturbed p d.sender life r d) (hl : Lifetime life)
    (hf : Follows d.sender life r) :
    (r.check p d).1 = true ↔ Admits (r.seqs d.sender) d.seq := by
  obtain ⟨hlive, hown⟩ := h
  obtain ⟨hlife, hfresh, hroom⟩ := hown rfl
  cases hs : r.peers.lookup d.sender with
  | none =>
    rw [hs] at hroom
    have hr := hroom.resolve_left Bool.false_ne_true
    apply iff_of_true (check_of_room hfresh hs hr)
    exact .inl fun a ha => absurd ha (hf.untracked hs a)
  | some s =>
    obtain ⟨ht, hm⟩ := hf.tracked s hs
    have hw : r.window? p d = some s := by
      rw [hs] at hlive
      exact Option.filter_eq_some_iff.2 ⟨hs, hlive⟩
    rw [check_of_window hfresh hw]
    exact ht.accept_iff hl hm hlife

theorem seqs_after_other (hk : k ≠ d.sender) : (r.after p d).seqs k = r.seqs k := by
  funext q
  rw [seqs, seqs, (after_other hk).2]

theorem seqs_after_rejected (ha : (r.check p d).1 = false) (k : K) :
    (r.after p d).seqs k = r.seqs k := by
  funext q
  rw [seqs, seqs, (after_rejected ha k).2]

theorem seqs_after_sender (ha : (r.check p d).1 = true) (q : Nat) :
    (q = d.seq ∨ r.seqs d.sender q) ↔ (r.after p d).seqs d.sender q := by
  rw [seqs, seqs, (after_sender ha).2]
  constructor
  · intro h
    rcases h with h | ⟨t, h⟩
    · exact ⟨d.stamp, .inl ⟨h, rfl⟩⟩
    · exact ⟨t, .inr h⟩
  · intro h
    obtain ⟨t, h⟩ := h
    rcases h with ⟨h, _⟩ | h
    · exact .inl h
    · exact .inr ⟨t, h⟩

theorem Follows.kept {now : Nat} (h : Follows k life r) (hs : r'.seqs k = r.seqs k)
    (hl : (r.peers.lookup k).all (p.live now) = true) (hk : Kept p now r.peers r'.peers k) :
    Follows k life r' := by
  rcases hk with hk | ⟨_, s, hls, hdead⟩
  · constructor
    · rw [hk, hs]
      exact h.untracked
    · rw [hk, hs]
      exact h.tracked
  · rw [hls] at hl
    cases hdead.symm.trans hl

theorem Follows.step (h : Follows k life r) (hl : Lifetime life) (hs : r.step p d = some r')
    (hu : Undisturbed p k life r d) : Follows k life r' := by
  obtain ⟨_, rfl⟩ := step_eq_some hs
  by_cases hk : k = d.sender
  · subst hk
    obtain ⟨hlive, hown⟩ := hu
    obtain ⟨hlife, _, _⟩ := hown rfl
    rcases check_cases p r d with ⟨ha, hkept⟩ | ⟨ha, _, hw, hlk⟩ | ⟨ha, s, hw, hacc, hlk⟩
    · exact h.kept (seqs_after_rejected ha _) hlive hkept
    · have hn : r.peers.lookup d.sender = none := by
        cases hls : r.peers.lookup d.sender with
        | none => rfl
        | some s =>
          rw [hls] at hlive
          cases (live_of_window?_eq_none hw hls).symm.trans hlive
      constructor
      · intro hnone
        cases hlk.symm.trans hnone
      · intro s' hs'
        cases hlk.symm.trans hs'
        refine ⟨(PeerState.tracks_new d.seq d.stamp).congr ?_, hlife⟩
        intro q
        rw [← seqs_after_sender ha q]
        exact ⟨.inl, fun hq => hq.resolve_right (h.untracked hn q)⟩
    · obtain ⟨ht, hm⟩ := h.tracked s (window?_eq_some hw).1
      obtain ⟨ht', hm'⟩ := ht.accept hl hm hlife hacc
      constructor
      · intro hnone
        cases hlk.symm.trans hnone
      · intro s' hs'
        cases hlk.symm.trans hs'
        exact ⟨ht'.congr (seqs_after_sender ha), hm'⟩
  · exact h.kept (seqs_after_other hk) hu.1 (check_kept hk)

/-- Over one lifetime of a sender, with any loss, duplication and reordering and among any other
senders, the filter accepts its datagrams exactly as the ideal filter does. -/
theorem check_exact {r₀ : Receiver K} {ds : List (Delivery K)} (hl : Lifetime life)
    (hn : r₀.peers.lookup k = none) (ha : ∀ q t, ¬ r₀.admitted k q t)
    (hu : EachStep (step p) (fun r d _ => Undisturbed p k life r d) r₀ ds) :
    EachStep (step p) (fun r d _ => d.sender = k →
      ((r.check p d).1 = true ↔ Admits (r.seqs k) d.seq)) r₀ ds := by
  have h₀ : Follows k life r₀ := by
    constructor
    · intro _ q hq
      obtain ⟨t, hq⟩ := hq
      exact ha q t hq
    · intro s hs
      cases hn.symm.trans hs
  refine hu.of_invariant (fun _ r => Follows k life r) h₀ ?_ ?_
  · intro _ r d r' hf hs hd
    exact hf.step hl hs hd
  · intro _ r d r' hf _ hd he
    subst he
    exact hd.check_iff hl hf

def sent : List (Nat × Nat) := [(1, 100), (2, 100), (3, 101), (2000, 105)]

/-- The second arrives first and twice, and the third only after it left the window. -/
def shuffled : List (Delivery Nat) :=
  [⟨0, 2, 100, 100⟩, ⟨1, 7, 90, 100⟩, ⟨0, 1, 100, 101⟩, ⟨0, 2, 100, 102⟩, ⟨0, 2000, 105, 105⟩,
    ⟨0, 3, 101, 106⟩]

theorem check_exact_shuffled : (∃ r, Runs (step fiveMinutes) {} shuffled r ∧
      r.accepted = [(0, 2000, 105), (0, 1, 100), (1, 7, 90), (0, 2, 100)]) ∧
    EachStep (step fiveMinutes) (fun r d _ => d.sender = 0 →
      ((r.check fiveMinutes d).1 = true ↔ Admits (r.seqs 0) d.seq)) {} shuffled := by
  constructor
  · have h : (runAll (step fiveMinutes) {} shuffled).map Receiver.accepted =
        some [(0, 2000, 105), (0, 1, 100), (1, 7, 90), (0, 2, 100)] := by
      decide +kernel
    obtain ⟨r, hr, ha⟩ := Option.map_eq_some_iff.1 h
    exact ⟨r, runs_of_runAll hr, ha⟩
  · have hs : ∀ a ∈ sent, ∀ b ∈ sent, a.1 ≤ b.1 → a.2 ≤ b.2 := by decide
    have hl : Lifetime fun q t => (q, t) ∈ sent := fun q t q' t' h h' => hs (q, t) h (q', t') h'
    have hc : checkAll (step fiveMinutes)
        (fun r d => decide (Undisturbed fiveMinutes 0 (fun q t => (q, t) ∈ sent) r d)) {}
        shuffled = true := by
      decide +kernel
    have hu := (eachStep_of_checkAll hc).imp fun _ _ _ h => of_decide_eq_true h
    exact check_exact hl rfl (fun q t h => by cases h) hu

end Receiver

end Reconcile.Replay
