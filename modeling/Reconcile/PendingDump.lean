import Mathlib.Algebra.Order.Ring.Nat

namespace Reconcile
set_option autoImplicit true

/-- A range a comparison asks for: from its start on, if it has one, and below its end, if it has
one. -/
structure EnumerationRange (K : Type) where
  start : Option K
  stop : Option K
  deriving DecidableEq

variable {K : Type} [LinearOrder K]

namespace EnumerationRange

def covers (r : EnumerationRange K) (k : K) : Bool :=
  (r.start.all fun a => a ≤ k) && r.stop.all fun b => k < b

end EnumerationRange

def startBoundLe : Option K → Option K → Bool
  | none, _ => true
  | some _, none => false
  | some left, some right => left ≤ right

def endBoundLt : Option K → Option K → Bool
  | none, _ => false
  | some _, none => true
  | some left, some right => left < right

def rangesOverlapOrTouch : Option K → Option K → Bool
  | none, _ => true
  | _, none => true
  | some leftEnd, some rightStart => rightStart ≤ leftEnd

def coalesceNext (coalesced : List (EnumerationRange K)) (r : EnumerationRange K) :
    List (EnumerationRange K) :=
  match coalesced with
  | [] => [r]
  | previous :: rest =>
    if rangesOverlapOrTouch previous.stop r.start then
      (if endBoundLt previous.stop r.stop then { previous with stop := r.stop }
        else previous) :: rest
    else r :: previous :: rest

def coalesceRanges (ranges : List (EnumerationRange K)) : List (EnumerationRange K) :=
  if ranges.length < 2 then ranges
  else ((ranges.mergeSort fun a b => startBoundLe a.start b.start).foldl coalesceNext []).reverse

def coversKey (ranges : List (EnumerationRange K)) (k : K) : Bool := ranges.any (·.covers k)

theorem startBoundLe_trans {a b c : Option K} (h : startBoundLe a b = true)
    (h' : startBoundLe b c = true) : startBoundLe a c = true := by
  cases a with
  | none => rfl
  | some a =>
    cases b with
    | none => cases h
    | some b =>
      cases c with
      | none => cases h'
      | some c =>
        simp only [startBoundLe, decide_eq_true_eq] at h h' ⊢
        exact h.trans h'

theorem startBoundLe_total (a b : Option K) :
    (startBoundLe a b || startBoundLe b a) = true := by
  cases a with
  | none => rfl
  | some a =>
    cases b with
    | none => rfl
    | some b =>
      simp only [startBoundLe, Bool.or_eq_true, decide_eq_true_eq]
      exact le_total a b

/-- A range that starts inside an earlier one, or right at its end, continues it. -/
theorem covers_merged {previous r : EnumerationRange K} (k : K)
    (hs : startBoundLe previous.start r.start = true)
    (ht : rangesOverlapOrTouch previous.stop r.start = true) :
    (if endBoundLt previous.stop r.stop then { previous with stop := r.stop }
      else previous).covers k = (previous.covers k || r.covers k) := by
  obtain ⟨s, e⟩ := previous
  obtain ⟨s', e'⟩ := r
  rw [Bool.eq_iff_iff]
  cases s <;> cases s' <;> cases e <;> cases e' <;>
    grind [startBoundLe, endBoundLt, rangesOverlapOrTouch, EnumerationRange.covers]

def StartsBelow (coalesced ranges : List (EnumerationRange K)) : Prop :=
  ∀ previous ∈ coalesced.head?, ∀ r ∈ ranges, startBoundLe previous.start r.start = true

theorem coversKey_coalesceNext {coalesced : List (EnumerationRange K)} {r : EnumerationRange K}
    (h : StartsBelow coalesced [r]) (k : K) :
    coversKey (coalesceNext coalesced r) k = (coversKey coalesced k || r.covers k) := by
  cases coalesced with
  | nil => simp [coalesceNext, coversKey]
  | cons previous rest =>
    have hs := h previous rfl r (List.mem_singleton_self r)
    simp only [coalesceNext]
    split
    · next ht =>
      simp only [coversKey, List.any_cons, covers_merged k hs ht]
      rw [Bool.or_right_comm]
    · simp only [coversKey, List.any_cons]
      rw [Bool.or_comm]

theorem StartsBelow.next {coalesced ranges : List (EnumerationRange K)} {r : EnumerationRange K}
    (h : StartsBelow coalesced (r :: ranges))
    (hr : ∀ r' ∈ ranges, startBoundLe r.start r'.start = true) :
    StartsBelow (coalesceNext coalesced r) ranges := by
  intro previous hp r' hr'
  cases coalesced with
  | nil =>
    cases hp
    exact hr r' hr'
  | cons first rest =>
    have hf := h first rfl r' (List.mem_cons_of_mem r hr')
    simp only [coalesceNext] at hp
    split at hp
    · cases hp
      split <;> exact hf
    · cases hp
      exact hr r' hr'

theorem coversKey_foldl {ranges : List (EnumerationRange K)}
    (hs : ranges.Pairwise fun a b => startBoundLe a.start b.start = true)
    {coalesced : List (EnumerationRange K)} (h : StartsBelow coalesced ranges) (k : K) :
    coversKey (ranges.foldl coalesceNext coalesced) k =
      (coversKey coalesced k || coversKey ranges k) := by
  induction ranges generalizing coalesced with
  | nil => simp [coversKey]
  | cons r ranges ih =>
    obtain ⟨hr, hs⟩ := List.pairwise_cons.1 hs
    have hh : StartsBelow coalesced [r] := by
      intro previous hp r' hr'
      exact h previous hp r' (List.mem_cons.2 (.inl (List.mem_singleton.1 hr')))
    rw [List.foldl_cons, ih hs (h.next hr), coversKey_coalesceNext hh]
    simp only [coversKey, List.any_cons, Bool.or_assoc]

/-- Coalescing asks for exactly the keys the ranges asked for. -/
theorem coversKey_coalesceRanges (ranges : List (EnumerationRange K)) (k : K) :
    coversKey (coalesceRanges ranges) k = coversKey ranges k := by
  unfold coalesceRanges
  split
  · rfl
  · have hs : (ranges.mergeSort fun a b => startBoundLe a.start b.start).Pairwise
        fun a b => startBoundLe a.start b.start = true :=
      List.pairwise_mergeSort (fun a b c => @startBoundLe_trans K _ a.start b.start c.start)
        (fun a b => startBoundLe_total a.start b.start) ranges
    have hp := List.mergeSort_perm ranges fun a b => startBoundLe a.start b.start
    have hn : StartsBelow [] (ranges.mergeSort fun a b => startBoundLe a.start b.start) := by
      intro previous hp
      cases hp
    have hf := coversKey_foldl hs hn k
    simp only [coversKey, List.any_reverse] at hf ⊢
    rw [hf, List.any_nil, Bool.false_or]
    exact hp.any_eq

theorem coalesceNext_ne_nil (coalesced : List (EnumerationRange K)) (r : EnumerationRange K) :
    coalesceNext coalesced r ≠ [] := by
  cases coalesced with
  | nil => exact List.cons_ne_nil _ _
  | cons previous rest =>
    simp only [coalesceNext]
    split <;> exact List.cons_ne_nil _ _

theorem foldl_coalesceNext_ne_nil {coalesced ranges : List (EnumerationRange K)}
    (h : coalesced ≠ [] ∨ ranges ≠ []) : ranges.foldl coalesceNext coalesced ≠ [] := by
  induction ranges generalizing coalesced with
  | nil => exact h.resolve_right fun hn => hn rfl
  | cons r ranges ih => exact ih (.inl (coalesceNext_ne_nil coalesced r))

theorem coalesceRanges_ne_nil {ranges : List (EnumerationRange K)} (h : ranges ≠ []) :
    coalesceRanges ranges ≠ [] := by
  unfold coalesceRanges
  split
  · exact h
  · rw [ne_eq, List.reverse_eq_nil_iff]
    apply foldl_coalesceNext_ne_nil (.inr _)
    intro hn
    have hp := List.mergeSort_perm ranges fun a b => startBoundLe a.start b.start
    rw [hn] at hp
    exact h (List.nil_perm.1 hp)

end Reconcile
