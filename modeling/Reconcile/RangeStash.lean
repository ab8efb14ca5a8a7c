import Mathlib.Data.List.Induction
import Mathlib.Order.WithBot
import Reconcile.BulkDump
import Reconcile.Lib.HashMap
import Reconcile.Lib.Separated

namespace Reconcile
open Lib
set_option autoImplicit true

variable {K : Type} [LinearOrder K]

inductive Bound (K : Type) where
  | unbounded
  | included (key : K)
  | excluded (key : K)
  deriving DecidableEq

/-- The arms no range of the protocol reaches. -/
inductive Unreachable where
  | excludedStart
  | includedEnd
  | notHalfOpen
  deriving DecidableEq, Repr

def cmpStartBound : Bound K → Bound K → Except Unreachable Ordering
  | .unbounded, .unbounded => .ok .eq
  | .unbounded, .included _ => .ok .lt
  | .included _, .unbounded => .ok .gt
  | .included left, .included right => .ok (compare left right)
  | .excluded _, _ | _, .excluded _ => .error .excludedStart

def cmpEndBound : Bound K → Bound K → Except Unreachable Ordering
  | .unbounded, .unbounded => .ok .eq
  | .unbounded, .excluded _ => .ok .gt
  | .excluded _, .unbounded => .ok .lt
  | .excluded left, .excluded right => .ok (compare left right)
  | .included _, _ | _, .included _ => .error .includedEnd

def boundsOverlapOrTouch : Bound K → Bound K → Except Unreachable Bool
  | .unbounded, _ | _, .unbounded => .ok true
  | .excluded left, .included right => .ok (right ≤ left)
  | .included _, _ | _, .excluded _ => .error .notHalfOpen

def startNotAfter (left right : Bound K) : Bool :=
  match cmpStartBound left right with
  | .ok .gt => false
  | _ => true

/-- A comparison fails for every range with an excluded start, and a sort of two or more ranges
compares each with some other, so it fails when a pair does. -/
def sortByStart (ranges : List (Bound K × Bound K)) :
    Except Unreachable (List (Bound K × Bound K)) :=
  if ranges.all fun left => ranges.all fun right => (cmpStartBound left.1 right.1).toBool then
    .ok (ranges.mergeSort fun left right => startNotAfter left.1 right.1)
  else .error .excludedStart

def coalesceNextBounds (coalesced : List (Bound K × Bound K)) (r : Bound K × Bound K) :
    Except Unreachable (List (Bound K × Bound K)) :=
  match coalesced with
  | [] => .ok [r]
  | previous :: rest =>
    match boundsOverlapOrTouch previous.2 r.1 with
    | .error e => .error e
    | .ok true =>
      match cmpEndBound previous.2 r.2 with
      | .error e => .error e
      | .ok order => .ok ((if order = .lt then (previous.1, r.2) else previous) :: rest)
    | .ok false => .ok (r :: previous :: rest)

def coalesceBounds (ranges : List (Bound K × Bound K)) :
    Except Unreachable (List (Bound K × Bound K)) :=
  if ranges.length < 2 then .ok ranges
  else
    match sortByStart ranges with
    | .error e => .error e
    | .ok sorted => (sorted.foldlM coalesceNextBounds []).map List.reverse

def EnumerationRange.bounds (r : EnumerationRange K) : Bound K × Bound K :=
  (r.start.elim .unbounded .included, r.stop.elim .unbounded .excluded)

theorem cmpStartBound_bounds (r s : EnumerationRange K) :
    (cmpStartBound r.bounds.1 s.bounds.1).toBool = true ∧
      startNotAfter r.bounds.1 s.bounds.1 = startBoundLe r.start s.start := by
  obtain ⟨start, stop⟩ := r
  obtain ⟨start', stop'⟩ := s
  cases start with
  | none => cases start' <;> exact ⟨rfl, rfl⟩
  | some a =>
    cases start' with
    | none => exact ⟨rfl, rfl⟩
    | some b =>
      refine ⟨rfl, ?_⟩
      simp only [startNotAfter, EnumerationRange.bounds, Option.elim_some, cmpStartBound,
        startBoundLe]
      rcases lt_trichotomy a b with h | h | h
      · rw [compare_lt_iff_lt.2 h]
        exact (decide_eq_true h.le).symm
      · rw [compare_eq_iff_eq.2 h]
        exact (decide_eq_true h.le).symm
      · rw [compare_gt_iff_gt.2 h]
        exact (decide_eq_false h.not_ge).symm

theorem cmpEndBound_bounds (r s : EnumerationRange K) :
    ∃ order, cmpEndBound r.bounds.2 s.bounds.2 = .ok order ∧
      (order = .lt ↔ endBoundLt r.stop s.stop = true) := by
  obtain ⟨start, stop⟩ := r
  obtain ⟨start', stop'⟩ := s
  cases stop with
  | none => cases stop' <;> exact ⟨_, rfl, by simp [endBoundLt]⟩
  | some a =>
    cases stop' with
    | none => exact ⟨_, rfl, by simp [endBoundLt]⟩
    | some b => exact ⟨_, rfl, by simp only [compare_lt_iff_lt, endBoundLt, decide_eq_true_eq]⟩

theorem boundsOverlapOrTouch_bounds (r s : EnumerationRange K) :
    boundsOverlapOrTouch r.bounds.2 s.bounds.1 = .ok (rangesOverlapOrTouch r.stop s.start) := by
  obtain ⟨start, stop⟩ := r
  obtain ⟨start', stop'⟩ := s
  cases stop <;> cases start' <;> rfl

theorem coalesceNextBounds_eq (coalesced : List (EnumerationRange K)) (r : EnumerationRange K) :
    coalesceNextBounds (coalesced.map EnumerationRange.bounds) r.bounds =
      .ok ((coalesceNext coalesced r).map EnumerationRange.bounds) := by
  cases coalesced with
  | nil => rfl
  | cons previous rest =>
    obtain ⟨order, horder, hlt⟩ := cmpEndBound_bounds previous r
    rw [List.map_cons, coalesceNextBounds, boundsOverlapOrTouch_bounds, coalesceNext]
    cases rangesOverlapOrTouch previous.stop r.start with
    | false => rfl
    | true =>
      simp only [horder, hlt, if_true]
      split <;> rfl

theorem foldlM_coalesceNextBounds (ranges coalesced : List (EnumerationRange K)) :
    (ranges.map EnumerationRange.bounds).foldlM coalesceNextBounds
        (coalesced.map EnumerationRange.bounds) =
      .ok ((ranges.foldl coalesceNext coalesced).map EnumerationRange.bounds) := by
  induction ranges generalizing coalesced with
  | nil => rfl
  | cons r ranges ih =>
    rw [List.map_cons, List.foldlM_cons, coalesceNextBounds_eq]
    exact ih (coalesceNext coalesced r)

/-- On half-open ranges the source's comparisons never reach an `unreachable!` arm, and give what the
option model gives. -/
theorem coalesceBounds_eq (ranges : List (EnumerationRange K)) :
    coalesceBounds (ranges.map EnumerationRange.bounds) =
      .ok ((coalesceRanges ranges).map EnumerationRange.bounds) := by
  rw [coalesceBounds, coalesceRanges, List.length_map]
  split
  · rfl
  · have hsort : sortByStart (ranges.map EnumerationRange.bounds) =
        .ok ((ranges.mergeSort fun a b => startBoundLe a.start b.start).map
          EnumerationRange.bounds) := by
      rw [sortByStart, if_pos ?_, List.map_mergeSort]
      · exact fun a _ b _ => (cmpStartBound_bounds a b).2.symm
      · simp only [List.all_map, List.all_eq_true, Function.comp_apply]
        exact fun a _ b _ => (cmpStartBound_bounds a b).1
    rw [hsort]
    simp only
    rw [show ([] : List (Bound K × Bound K)) = [].map EnumerationRange.bounds from rfl,
      foldlM_coalesceNextBounds, Except.map, List.map_reverse]

abbrev Point (K : Type) : Type := WithBot (WithTop K)

def startPoint : Option K → Point K
  | none => ⊥
  | some key => ((key : WithTop K) : Point K)

def stopPoint : Option K → Point K
  | none => ((⊤ : WithTop K) : Point K)
  | some key => ((key : WithTop K) : Point K)

namespace EnumerationRange

def span (r : EnumerationRange K) : Point K × Point K := (startPoint r.start, stopPoint r.stop)

def Proper (r : EnumerationRange K) : Prop := ∀ a ∈ r.start, ∀ b ∈ r.stop, a < b

end EnumerationRange

theorem key_lt_stop (key : K) : ((key : WithTop K) : Point K) < stopPoint none :=
  WithBot.coe_lt_coe.2 (WithTop.coe_lt_top key)

theorem startBoundLe_iff (a b : Option K) :
    startBoundLe a b = true ↔ startPoint a ≤ startPoint b := by
  cases a <;> cases b <;> simp [startBoundLe, startPoint]

theorem endBoundLt_iff (a b : Option K) : endBoundLt a b = true ↔ stopPoint a < stopPoint b := by
  cases a with
  | none => cases b <;> simp [endBoundLt, stopPoint]
  | some a =>
    cases b with
    | none => exact ⟨fun _ => key_lt_stop a, fun _ => rfl⟩
    | some b => simp [endBoundLt, stopPoint]

theorem rangesOverlapOrTouch_iff (stop start : Option K) :
    rangesOverlapOrTouch stop start = true ↔ startPoint start ≤ stopPoint stop := by
  cases stop <;> cases start <;> simp [rangesOverlapOrTouch, startPoint, stopPoint]

theorem proper_iff (r : EnumerationRange K) : r.Proper ↔ r.span.1 < r.span.2 := by
  obtain ⟨start, stop⟩ := r
  cases start with
  | none =>
    cases stop <;> simp [EnumerationRange.Proper, EnumerationRange.span, startPoint, stopPoint]
  | some a =>
    cases stop with
    | none => exact ⟨fun _ => key_lt_stop a, fun _ _ _ _ hb => absurd hb (by rintro ⟨⟩)⟩
    | some b => simp [EnumerationRange.Proper, EnumerationRange.span, startPoint, stopPoint]

omit [LinearOrder K] in
theorem span_injective : Function.Injective (EnumerationRange.span (K := K)) := by
  rintro ⟨start, stop⟩ ⟨start', stop'⟩ h
  obtain ⟨hstart, hstop⟩ := Prod.mk.inj h
  have hs : start = start' := by
    cases start <;> cases start' <;> simp_all [startPoint]
  have he : stop = stop' := by
    cases stop <;> cases stop' <;> simp_all [stopPoint]
  rw [hs, he]

theorem map_coalesceNext (coalesced : List (EnumerationRange K)) (r : EnumerationRange K) :
    (coalesceNext coalesced r).map EnumerationRange.span =
      Separated.absorb (coalesced.map EnumerationRange.span) r.span := by
  cases coalesced with
  | nil => rfl
  | cons previous rest =>
    rw [coalesceNext, List.map_cons, Separated.absorb]
    simp only [rangesOverlapOrTouch_iff]
    have hmeets : (startPoint r.start ≤ stopPoint previous.stop) = (r.span.1 ≤ previous.span.2) := rfl
    simp only [hmeets]
    split
    · rw [List.map_cons]
      congr 1
      split
      · next hlt => exact Prod.ext rfl (max_eq_right ((endBoundLt_iff ..).1 hlt).le).symm
      · next hlt =>
        rw [endBoundLt_iff, not_lt] at hlt
        exact Prod.ext rfl (max_eq_left hlt).symm
    · rfl

theorem map_foldl_coalesceNext (ranges coalesced : List (EnumerationRange K)) :
    (ranges.foldl coalesceNext coalesced).map EnumerationRange.span =
      (ranges.map EnumerationRange.span).foldl Separated.absorb
        (coalesced.map EnumerationRange.span) := by
  induction ranges generalizing coalesced with
  | nil => rfl
  | cons r ranges ih => rw [List.foldl_cons, ih, map_coalesceNext, List.map_cons, List.foldl_cons]

theorem coalesceRanges_normal {ranges : List (EnumerationRange K)} (h : ∀ r ∈ ranges, r.Proper) :
    Separated.Normal ((coalesceRanges ranges).map EnumerationRange.span) ∧
      ∀ x, Separated.Covers ((coalesceRanges ranges).map EnumerationRange.span) x ↔
        Separated.Covers (ranges.map EnumerationRange.span) x := by
  have hproper : ∀ s ∈ ranges.map EnumerationRange.span, s.1 < s.2 := by
    intro s hs
    obtain ⟨r, hr, rfl⟩ := List.mem_map.1 hs
    exact (proper_iff r).1 (h r hr)
  unfold coalesceRanges
  split
  · next hshort =>
    refine ⟨⟨hproper, ?_⟩, fun _ => Iff.rfl⟩
    cases ranges with
    | nil => exact .nil
    | cons r ranges =>
      cases ranges with
      | nil => exact List.pairwise_singleton ..
      | cons r' ranges =>
        simp only [List.length_cons] at hshort
        omega
  · have hperm := (List.mergeSort_perm ranges fun a b => startBoundLe a.start b.start).map
      EnumerationRange.span
    have hsorted : ((ranges.mergeSort fun a b => startBoundLe a.start b.start).map
        EnumerationRange.span).Pairwise fun r s => r.1 ≤ s.1 := by
      rw [List.pairwise_map]
      refine (List.pairwise_mergeSort (fun a b c => @startBoundLe_trans K _ a.start b.start c.start)
        (fun a b => startBoundLe_total a.start b.start) ranges).imp ?_
      intro a b hab
      exact (startBoundLe_iff ..).1 hab
    obtain ⟨hnormal, hpoints⟩ := Separated.normal_absorb
      (fun s hs => hproper s (hperm.mem_iff.1 hs)) hsorted
    have hmap := map_foldl_coalesceNext
      (ranges.mergeSort fun a b => startBoundLe a.start b.start) []
    rw [List.map_reverse, hmap]
    refine ⟨hnormal, fun x => ?_⟩
    exact (hpoints x).trans (Separated.covers_perm hperm x)

/-- The coalesced list depends on the points asked for only. -/
theorem coalesceRanges_ext {ranges ranges' : List (EnumerationRange K)}
    (h : ∀ r ∈ ranges, r.Proper) (h' : ∀ r ∈ ranges', r.Proper)
    (hpoints : ∀ x, Separated.Covers (ranges.map EnumerationRange.span) x ↔
      Separated.Covers (ranges'.map EnumerationRange.span) x) :
    coalesceRanges ranges = coalesceRanges ranges' := by
  obtain ⟨hnormal, hcovers⟩ := coalesceRanges_normal h
  obtain ⟨hnormal', hcovers'⟩ := coalesceRanges_normal h'
  apply List.map_injective_iff.2 span_injective
  apply hnormal.ext hnormal'
  intro x
  rw [hcovers, hcovers', hpoints]

theorem proper_coalesceRanges {ranges : List (EnumerationRange K)} (h : ∀ r ∈ ranges, r.Proper) :
    ∀ r ∈ coalesceRanges ranges, r.Proper := by
  intro r hr
  exact (proper_iff r).2 ((coalesceRanges_normal h).1.proper _ (List.mem_map_of_mem hr))

/-- Coalescing in the middle makes no difference. -/
theorem coalesceRanges_append {ranges ranges' : List (EnumerationRange K)}
    (h : ∀ r ∈ ranges, r.Proper) (h' : ∀ r ∈ ranges', r.Proper) :
    coalesceRanges (coalesceRanges ranges ++ ranges') = coalesceRanges (ranges ++ ranges') := by
  have happend : ∀ {l : List (EnumerationRange K)}, (∀ r ∈ l, r.Proper) →
      ∀ r ∈ l ++ ranges', r.Proper := by
    intro l hl r hr
    rcases List.mem_append.1 hr with hr | hr
    · exact hl r hr
    · exact h' r hr
  refine coalesceRanges_ext (happend (proper_coalesceRanges h)) (happend h) ?_
  intro x
  rw [List.map_append, List.map_append, Separated.covers_append, Separated.covers_append,
    (coalesceRanges_normal h).2]

structure PendingDumps (A K : Type) where
  pendingDumps : HashMap A (List (EnumerationRange K)) := ∅
  pendingValueDumps : HashMap A (List (EnumerationRange K)) := ∅

namespace PendingDumps

variable {A : Type} [DecidableEq A]

def stash (s : PendingDumps A K) : DumpChannel → HashMap A (List (EnumerationRange K))
  | .dated => s.pendingDumps
  | .valueOnly => s.pendingValueDumps

def put (s : PendingDumps A K) (channel : DumpChannel)
    (pending : HashMap A (List (EnumerationRange K))) : PendingDumps A K :=
  match channel with
  | .dated => { s with pendingDumps := pending }
  | .valueOnly => { s with pendingValueDumps := pending }

def waiting (s : PendingDumps A K) (channel : DumpChannel) (peer : A) : List (EnumerationRange K) :=
  ((s.stash channel).lookup peer).getD []

def stashPendingDump (s : PendingDumps A K) (channel : DumpChannel) (peer : A)
    (ranges : List (EnumerationRange K)) : PendingDumps A K :=
  s.put channel ((s.stash channel).insert peer (coalesceRanges (s.waiting channel peer ++ ranges)))

def takePendingDump (s : PendingDumps A K) (channel : DumpChannel) (peer : A)
    (ranges : List (EnumerationRange K)) : List (EnumerationRange K) × PendingDumps A K :=
  (coalesceRanges (s.waiting channel peer ++ ranges), s.put channel ((s.stash channel).erase peer))

structure Call (A K : Type) where
  channel : DumpChannel
  peer : A
  ranges : List (EnumerationRange K)

def run (calls : List (Call A K)) : PendingDumps A K :=
  calls.foldl (fun s c => s.stashPendingDump c.channel c.peer c.ranges) {}

def asked (calls : List (Call A K)) (channel : DumpChannel) (peer : A) :
    List (EnumerationRange K) :=
  (calls.filter fun c => c.channel = channel && c.peer = peer).flatMap Call.ranges

omit [LinearOrder K] [DecidableEq A] in
theorem stash_put (s : PendingDumps A K) (channel channel' : DumpChannel)
    (pending : HashMap A (List (EnumerationRange K))) :
    (s.put channel pending).stash channel' =
      if channel' = channel then pending else s.stash channel' := by
  cases channel <;> cases channel' <;> rfl

theorem waiting_stashPendingDump (s : PendingDumps A K) (c : Call A K) (channel : DumpChannel)
    (peer : A) :
    (s.stashPendingDump c.channel c.peer c.ranges).waiting channel peer =
      if c.channel = channel ∧ c.peer = peer then
        coalesceRanges (s.waiting channel peer ++ c.ranges)
      else s.waiting channel peer := by
  rw [waiting, stashPendingDump, stash_put]
  by_cases hc : channel = c.channel
  · subst hc
    rw [if_pos rfl, HashMap.lookup_insert_eq]
    by_cases hp : peer = c.peer
    · subst hp
      rw [if_pos rfl, if_pos ⟨rfl, rfl⟩, Option.getD_some]
    · rw [if_neg hp, if_neg fun h => hp h.2.symm, waiting]
  · rw [if_neg hc, if_neg fun h => hc h.1.symm, waiting]

omit [LinearOrder K] in
theorem asked_snoc (calls : List (Call A K)) (c : Call A K) (channel : DumpChannel) (peer : A) :
    asked (calls ++ [c]) channel peer =
      if c.channel = channel ∧ c.peer = peer then asked calls channel peer ++ c.ranges
      else asked calls channel peer := by
  simp only [asked, List.filter_append, List.flatMap_append, List.filter_cons, List.filter_nil,
    Bool.and_eq_true, decide_eq_true_eq]
  split
  · rw [List.flatMap_singleton]
  · rw [List.flatMap_nil, List.append_nil]

/-- What waits is all that was stashed, coalesced at once. -/
theorem waiting_run (calls : List (Call A K)) (channel : DumpChannel) (peer : A)
    (h : ∀ r ∈ asked calls channel peer, r.Proper) :
    (run calls).waiting channel peer = coalesceRanges (asked calls channel peer) := by
  induction calls using List.reverseRecOn with
  | nil => cases channel <;> rfl
  | append_singleton calls c ih =>
    rw [run, List.foldl_append, ← run, List.foldl_cons, List.foldl_nil, waiting_stashPendingDump,
      asked_snoc]
    rw [asked_snoc] at h
    split
    · next hc =>
      rw [if_pos hc] at h
      have hold : ∀ r ∈ asked calls channel peer, r.Proper :=
        fun r hr => h r (List.mem_append_left _ hr)
      rw [ih hold, coalesceRanges_append hold fun r hr => h r (List.mem_append_right _ hr)]
    · next hc =>
      rw [if_neg hc] at h
      exact ih h

end PendingDumps

/-- Proper half-open ranges coalesce into ranges for the same keys, in order and apart, without an
`unreachable!` arm, and however the same ranges are stashed, the same list waits in the end and is
handed out, with the ranges of the call that takes it. -/
theorem range_stash_normal {A : Type} [DecidableEq A] (ranges : List (EnumerationRange K))
    (h : ∀ r ∈ ranges, r.Proper) :
    (∀ k, coversKey (coalesceRanges ranges) k = coversKey ranges k) ∧
    ((coalesceRanges ranges).Pairwise fun a b =>
      startBoundLe a.start b.start = true ∧ rangesOverlapOrTouch a.stop b.start = false) ∧
    coalesceBounds (ranges.map EnumerationRange.bounds) =
      .ok ((coalesceRanges ranges).map EnumerationRange.bounds) ∧
    ∀ (calls : List (PendingDumps.Call A K)) (channel : DumpChannel) (peer : A),
      (PendingDumps.asked calls channel peer).Perm ranges →
      (PendingDumps.run calls).waiting channel peer = coalesceRanges ranges ∧
      ∀ more : List (EnumerationRange K), (∀ r ∈ more, r.Proper) →
        ((PendingDumps.run calls).takePendingDump channel peer more).1 =
          coalesceRanges (ranges ++ more) := by
  obtain ⟨hnormal, _⟩ := coalesceRanges_normal h
  refine ⟨coversKey_coalesceRanges ranges, ?_, coalesceBounds_eq ranges, ?_⟩
  · have hproper := proper_coalesceRanges h
    refine (List.pairwise_map.1 hnormal.apart).imp_of_mem ?_
    intro a b ha _ hab
    have hstart := ((proper_iff a).1 (hproper a ha)).trans hab
    refine ⟨(startBoundLe_iff ..).2 hstart.le, ?_⟩
    rw [← Bool.not_eq_true, rangesOverlapOrTouch_iff, not_le]
    exact hab
  · intro calls channel peer hperm
    have hasked : ∀ r ∈ PendingDumps.asked calls channel peer, r.Proper :=
      fun r hr => h r (hperm.mem_iff.1 hr)
    have hwaiting : (PendingDumps.run calls).waiting channel peer = coalesceRanges ranges := by
      rw [PendingDumps.waiting_run calls channel peer hasked]
      refine coalesceRanges_ext hasked h ?_
      exact Separated.covers_perm (hperm.map EnumerationRange.span)
    refine ⟨hwaiting, ?_⟩
    intro more hmore
    rw [PendingDumps.takePendingDump, hwaiting]
    exact coalesceRanges_append h hmore

def threeRanges : List (EnumerationRange Nat) :=
  [⟨none, some 3⟩, ⟨some 3, some 5⟩, ⟨some 9, none⟩]

/-- The three in one batch, and one by one from the end with another channel in between. -/
theorem range_stash_normal_three :
    (PendingDumps.run [⟨.dated, 0, threeRanges⟩]).waiting .dated 0 =
      (PendingDumps.run [⟨.dated, 0, [⟨some 9, none⟩]⟩, ⟨.valueOnly, 0, threeRanges⟩,
        ⟨.dated, 0, [⟨some 3, some 5⟩]⟩, ⟨.dated, 0, [⟨none, some 3⟩]⟩]).waiting .dated 0 := by
  have hproper : ∀ r ∈ threeRanges, r.Proper := by
    simp [threeRanges, EnumerationRange.Proper]
  obtain ⟨_, _, _, hwaiting⟩ := range_stash_normal (A := Nat) threeRanges hproper
  rw [(hwaiting _ .dated 0 (by decide)).1, (hwaiting _ .dated 0 (by decide)).1]

end Reconcile
