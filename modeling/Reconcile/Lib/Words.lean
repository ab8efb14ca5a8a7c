import Mathlib.Init

namespace Lib
set_option autoImplicit true

/-- An array of bits packed into `n` words of 64. -/
abbrev Words (n : Nat) : Type := Vector (BitVec 64) n

namespace Words

variable {n : Nat}

def word (w : Words n) (i : Nat) : BitVec 64 := w[i]?.getD 0

def bit (w : Words n) (o : Nat) : Bool := (w.word (o / 64)).getLsbD (o % 64)

def setBit (w : Words n) (o : Nat) : Words n :=
  w.setIfInBounds (o / 64) (w.word (o / 64) ||| 1#64 <<< (o % 64))

def testBit (w : Words n) (o : Nat) : Bool := (w.word (o / 64) &&& 1#64 <<< (o % 64)) != 0#64

def descend (f : Words n → Nat → BitVec 64) : Nat → Words n → Words n
  | 0, w => w
  | k + 1, w => descend f k (w.setIfInBounds k (f w k))

theorem word_set (w : Words n) (i j : Nat) (x : BitVec 64) (hi : i < n) :
    word (w.setIfInBounds i x) j = if j = i then x else w.word j := by
  simp only [word, Vector.getElem?_setIfInBounds, eq_comm (a := j)]
  split
  · rfl
  · rfl

/-- A word rewritten from itself and earlier ones only is rewritten from the initial words. -/
theorem word_descend {f : Words n → Nat → BitVec 64}
    (hf : ∀ w w' i, (∀ j ≤ i, w.word j = w'.word j) → f w i = f w' i) (w : Words n) (k i : Nat)
    (hk : k ≤ n) : (descend f k w).word i = if i < k then f w i else w.word i := by
  induction k generalizing w with
  | zero => rfl
  | succ k ih =>
    rw [descend, ih _ (Nat.le_of_succ_le hk), word_set _ _ _ _ hk]
    by_cases hi : i < k
    · rw [if_pos hi, if_pos (Nat.lt_succ_of_lt hi)]
      apply hf
      intro j hj
      rw [word_set _ _ _ _ hk, if_neg (by omega)]
    · rw [if_neg hi]
      by_cases he : i = k
      · rw [if_pos he, if_pos (by omega), he]
      · rw [if_neg he, if_neg (by omega)]

theorem getLsbD_one_shift (b c : Nat) (hb : b < 64) :
    (1#64 <<< b).getLsbD c = decide (c = b) := by
  rw [← BitVec.twoPow_eq, BitVec.getLsbD_twoPow]
  simp only [hb, decide_true, Bool.true_and, eq_comm]

theorem bit_setBit (w : Words n) (o p : Nat) (ho : o < 64 * n) :
    (w.setBit o).bit p = (decide (p = o) || w.bit p) := by
  rw [bit, setBit, word_set _ _ _ _ (by omega)]
  by_cases h : p / 64 = o / 64
  · rw [if_pos h, BitVec.getLsbD_or, getLsbD_one_shift _ _ (by omega), bit, h, Bool.or_comm]
    congr 1
    exact decide_eq_decide.2 (by omega)
  · rw [if_neg h, bit, decide_eq_false (by omega), Bool.false_or]

theorem one_shift_ne_zero (b : Nat) (hb : b < 64) : 1#64 <<< b ≠ 0#64 := by
  intro he
  have h := getLsbD_one_shift b b hb
  rw [he, BitVec.getLsbD_zero, decide_eq_true rfl] at h
  cases h

theorem testBit_eq (w : Words n) (o : Nat) : w.testBit o = w.bit o := by
  have hb : o % 64 < 64 := Nat.mod_lt _ (by decide)
  rw [testBit, bit]
  cases h : (w.word (o / 64)).getLsbD (o % 64) with
  | false =>
    rw [← BitVec.twoPow_eq, BitVec.and_twoPow, h, if_neg Bool.false_ne_true]
    rfl
  | true =>
    rw [← BitVec.twoPow_eq, BitVec.and_twoPow, h, if_pos rfl, BitVec.twoPow_eq]
    exact bne_iff_ne.2 (one_shift_ne_zero _ hb)

end Words

end Lib
