import Mathlib.Init

namespace Lib
set_option autoImplicit true

/-- Remove the oldest entries while there is no room. The result counts the removals on top of `n`
and says whether room was made; the fuel is the number of entries. -/
def evictWhile (full : S → Bool) (oldest : S → Option K) (remove : S → K → S) :
    Nat → S → Nat → S × Nat × Bool
  | 0, s, n => (s, n, !full s)
  | fuel + 1, s, n =>
    if full s then
      match oldest s with
      | none => (s, n, false)
      | some k => evictWhile full oldest remove fuel (remove s k) (n + 1)
    else (s, n, true)

variable {S K : Type} {full : S → Bool} {oldest : S → Option K} {remove : S → K → S}

/-- What the removal of an oldest entry preserves, the loop preserves; the invariant may speak of the
number of removals. -/
theorem evictWhile_invariant (I : Nat → S → Prop)
    (hstep : ∀ n s k, I n s → oldest s = some k → I (n + 1) (remove s k)) (fuel : Nat) (s : S)
    (n : Nat) (h : I n s) :
    I (evictWhile full oldest remove fuel s n).2.1 (evictWhile full oldest remove fuel s n).1 := by
  induction fuel generalizing s n with
  | zero => exact h
  | succ fuel ih =>
    rw [evictWhile]
    split
    · split
      · exact h
      · next k hk => exact ih _ _ (hstep n s k h hk)
    · exact h

theorem evictWhile_stay {fuel : Nat} {s : S} {n : Nat} (h : full s = false ∨ oldest s = none) :
    (evictWhile full oldest remove fuel s n).1 = s := by
  cases fuel with
  | zero => rfl
  | succ fuel =>
    rw [evictWhile]
    split
    · next hf =>
      rcases h with h | h
      · rw [h] at hf
        cases hf
      · rw [h]
    · rfl

theorem evictWhile_room {fuel : Nat} {s : S} {n : Nat}
    (h : (evictWhile full oldest remove fuel s n).2.2 = true) :
    full (evictWhile full oldest remove fuel s n).1 = false := by
  induction fuel generalizing s n with
  | zero => simpa only [evictWhile, Bool.not_eq_true'] using h
  | succ fuel ih =>
    rw [evictWhile] at h ⊢
    split
    · next hf =>
      rw [if_pos hf] at h
      split
      · next ho =>
        rw [ho] at h
        cases h
      · next k ho =>
        rw [ho] at h
        exact ih h
    · next hf => exact Bool.eq_false_iff.2 hf

theorem evictWhile_stuck (entries : S → Nat)
    (hstep : ∀ s k, oldest s = some k → entries (remove s k) < entries s) {fuel : Nat} {s : S}
    {n : Nat} (hfuel : entries s ≤ fuel)
    (h : (evictWhile full oldest remove fuel s n).2.2 = false) :
    full (evictWhile full oldest remove fuel s n).1 = true ∧
      oldest (evictWhile full oldest remove fuel s n).1 = none := by
  induction fuel generalizing s n with
  | zero =>
    refine ⟨by simpa only [evictWhile, Bool.not_eq_false'] using h, ?_⟩
    cases ho : oldest s with
    | none => exact ho
    | some k =>
      have hlt := hstep s k ho
      omega
  | succ fuel ih =>
    rw [evictWhile] at h ⊢
    split
    · next hf =>
      rw [if_pos hf] at h
      split
      · next ho => exact ⟨hf, ho⟩
      · next k ho =>
        rw [ho] at h
        have hlt := hstep s k ho
        exact ih (by omega) h
    · next hf =>
      rw [if_neg hf] at h
      cases h

end Lib
