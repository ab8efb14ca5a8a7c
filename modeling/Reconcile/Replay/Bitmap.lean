import Mathlib.Data.Set.Insert
import Reconcile.Lib.Words

namespace Reconcile.Replay
open Lib
set_option autoImplicit true

def windowSize : Nat := 1024

/-- The out-of-order acceptance window: bit `i` records that `high_water - i` was accepted. The
high-water sequence itself is always marked. -/
structure SlidingBitmap where
  words : Words 16
  high : words.bit 0 = true

namespace SlidingBitmap

def markWords (w : Words 16) (offset : Nat) : Words 16 := w.setBit offset

def newWords : Words 16 := markWords (Vector.replicate 16 0) 0

def lo (w : Words 16) (wordShift bitShift i : Nat) : BitVec 64 :=
  if wordShift ≤ i then w.word (i - wordShift) <<< bitShift else 0#64

def hi (w : Words 16) (wordShift bitShift i : Nat) : BitVec 64 :=
  if wordShift < i then w.word (i - wordShift - 1) >>> (64 - bitShift) else 0#64

/-- The two loops of `advance`, before the new high-water mark is set. -/
def shiftWords (w : Words 16) (delta : Nat) : Words 16 :=
  let wordShift := delta / 64
  let bitShift := delta % 64
  if bitShift = 0 then
    Words.descend (fun w i => if wordShift ≤ i then w.word (i - wordShift) else 0#64) 16 w
  else
    Words.descend (fun w i => lo w wordShift bitShift i ||| hi w wordShift bitShift i) 16 w

def advanceWords (w : Words 16) (delta : Nat) : Words 16 :=
  if windowSize ≤ delta then newWords else markWords (shiftWords w delta) 0

theorem bit_markWords (w : Words 16) (offset o : Nat) (h : offset < windowSize) :
    (markWords w offset).bit o = (decide (o = offset) || w.bit o) :=
  Words.bit_setBit w offset o h

theorem bit_replicate (o : Nat) : Words.bit (Vector.replicate 16 0) o = false := by
  rw [Words.bit, Words.word, Vector.getElem?_replicate]
  split
  · exact BitVec.getLsbD_zero
  · exact BitVec.getLsbD_zero

theorem bit_newWords (o : Nat) : newWords.bit o = decide (o = 0) := by
  rw [newWords, bit_markWords _ _ _ (by decide), bit_replicate, Bool.or_false]

theorem getLsbD_lo (w : Words 16) (wordShift bitShift i b : Nat) (hb : b < 64) :
    (lo w wordShift bitShift i).getLsbD b =
      (decide (wordShift ≤ i ∧ bitShift ≤ b) && (w.word (i - wordShift)).getLsbD (b - bitShift)) := by
  rw [lo]
  by_cases h : wordShift ≤ i
  · rw [if_pos h, BitVec.getLsbD_shiftLeft, decide_eq_true hb, Bool.true_and]
    by_cases hs : bitShift ≤ b
    · rw [decide_eq_false (Nat.not_lt.2 hs), decide_eq_true ⟨h, hs⟩, Bool.not_false]
    · rw [decide_eq_true (Nat.lt_of_not_le hs), decide_eq_false (fun hc => hs hc.2), Bool.not_true]
  · rw [if_neg h, BitVec.getLsbD_zero, decide_eq_false (fun hc => h hc.1), Bool.false_and]

theorem getLsbD_hi (w : Words 16) (wordShift bitShift i b : Nat) :
    (hi w wordShift bitShift i).getLsbD b =
      (decide (wordShift < i) && (w.word (i - wordShift - 1)).getLsbD (64 - bitShift + b)) := by
  rw [hi]
  by_cases h : wordShift < i
  · rw [if_pos h, decide_eq_true h, BitVec.getLsbD_ushiftRight, Bool.true_and]
  · rw [if_neg h, decide_eq_false h, BitVec.getLsbD_zero, Bool.false_and]

theorem bit_shiftWords_aligned (w : Words 16) {delta o : Nat} (hd : delta % 64 = 0)
    (ho : o / 64 < 16) :
    (shiftWords w delta).bit o = (decide (delta ≤ o) && w.bit (o - delta)) := by
  have hf : ∀ (w w' : Words 16) i, (∀ j ≤ i, w.word j = w'.word j) →
      (if delta / 64 ≤ i then w.word (i - delta / 64) else 0#64) =
        if delta / 64 ≤ i then w'.word (i - delta / 64) else 0#64 := by
    intro w w' i h
    rw [h _ (Nat.sub_le _ _)]
  rw [shiftWords, if_pos hd, Words.bit, Words.word_descend hf _ _ _ (Nat.le_refl _), if_pos ho]
  by_cases h : delta / 64 ≤ o / 64
  · have hq : (o - delta) / 64 = o / 64 - delta / 64 := by omega
    have hr : (o - delta) % 64 = o % 64 := by omega
    rw [if_pos h, decide_eq_true (by omega), Bool.true_and, Words.bit, hq, hr]
  · rw [if_neg h, decide_eq_false (by omega), Bool.false_and, BitVec.getLsbD_zero]

/-- Otherwise each word takes the low bits of one word and the high bits of the one before. -/
theorem bit_shiftWords_carry (w : Words 16) {delta o : Nat} (hd : delta % 64 ≠ 0)
    (ho : o / 64 < 16) :
    (shiftWords w delta).bit o = (decide (delta ≤ o) && w.bit (o - delta)) := by
  have hf : ∀ (w w' : Words 16) i, (∀ j ≤ i, w.word j = w'.word j) →
      lo w (delta / 64) (delta % 64) i ||| hi w (delta / 64) (delta % 64) i =
        lo w' (delta / 64) (delta % 64) i ||| hi w' (delta / 64) (delta % 64) i := by
    intro w w' i h
    rw [lo, hi, h (i - delta / 64) (Nat.sub_le _ _), h (i - delta / 64 - 1) (by omega)]
    rfl
  rw [shiftWords, if_neg hd, Words.bit, Words.word_descend hf _ _ _ (Nat.le_refl _), if_pos ho,
    BitVec.getLsbD_or, getLsbD_lo _ _ _ _ _ (by omega), getLsbD_hi]
  by_cases hb : delta % 64 ≤ o % 64
  · rw [BitVec.getLsbD_of_ge _ (64 - delta % 64 + o % 64) (by omega), Bool.and_false, Bool.or_false]
    by_cases h : delta ≤ o
    · have hq : (o - delta) / 64 = o / 64 - delta / 64 := by omega
      have hr : (o - delta) % 64 = o % 64 - delta % 64 := by omega
      rw [decide_eq_true h, decide_eq_true ⟨by omega, hb⟩, Words.bit, hq, hr]
    · rw [decide_eq_false h, decide_eq_false (by omega), Bool.false_and, Bool.false_and]
  · rw [decide_eq_false (fun h => hb h.2), Bool.false_and, Bool.false_or]
    by_cases h : delta ≤ o
    · have hq : (o - delta) / 64 = o / 64 - delta / 64 - 1 := by omega
      have hr : (o - delta) % 64 = 64 - delta % 64 + o % 64 := by omega
      rw [decide_eq_true h, decide_eq_true (by omega), Words.bit, hq, hr]
    · rw [decide_eq_false h, decide_eq_false (by omega), Bool.false_and, Bool.false_and]

theorem bit_shiftWords (w : Words 16) {delta o : Nat} (ho : o < windowSize) :
    (shiftWords w delta).bit o = (decide (delta ≤ o) && w.bit (o - delta)) := by
  have hi : o / 64 < 16 := Nat.div_lt_of_lt_mul ho
  by_cases hd : delta % 64 = 0
  · exact bit_shiftWords_aligned w hd hi
  · exact bit_shiftWords_carry w hd hi

/-- Advancing moves every mark back by the distance and marks the new high water. -/
theorem bit_advanceWords (w : Words 16) {delta o : Nat} (ho : o < windowSize) :
    (advanceWords w delta).bit o =
      (decide (o = 0) || (decide (delta ≤ o) && w.bit (o - delta))) := by
  rw [advanceWords]
  split
  · next h => rw [bit_newWords, decide_eq_false (by omega : ¬ delta ≤ o), Bool.false_and,
      Bool.or_false]
  · rw [bit_markWords _ _ _ (by decide), bit_shiftWords w ho]

def new : SlidingBitmap where
  words := newWords
  high := bit_newWords 0

def mark (b : SlidingBitmap) (offset : Nat) (h : offset < windowSize) : SlidingBitmap where
  words := markWords b.words offset
  high := by rw [bit_markWords _ _ _ h, b.high, Bool.or_true]

def isMarked (b : SlidingBitmap) (offset : Nat) : Bool := b.words.testBit offset

def advance (b : SlidingBitmap) (delta : Nat) : SlidingBitmap where
  words := advanceWords b.words delta
  high := by rw [bit_advanceWords _ (by decide), decide_eq_true rfl, Bool.true_or]

theorem isMarked_new (o : Nat) : new.isMarked o = decide (o = 0) := by
  rw [isMarked, Words.testBit_eq]
  exact bit_newWords o

theorem isMarked_mark (b : SlidingBitmap) (offset o : Nat) (h : offset < windowSize) :
    (b.mark offset h).isMarked o = (decide (o = offset) || b.isMarked o) := by
  rw [isMarked, isMarked, Words.testBit_eq, Words.testBit_eq]
  exact bit_markWords b.words offset o h

theorem isMarked_advance (b : SlidingBitmap) (delta : Nat) {o : Nat} (ho : o < windowSize) :
    (b.advance delta).isMarked o =
      (decide (o = 0) || (decide (delta ≤ o) && b.isMarked (o - delta))) := by
  rw [isMarked, isMarked, Words.testBit_eq, Words.testBit_eq]
  exact bit_advanceWords b.words ho

def marked (w : Words 16) : Set Nat := {o | o < windowSize ∧ w.bit o = true}

theorem mem_marked (w : Words 16) (o : Nat) : o ∈ marked w ↔ o < windowSize ∧ w.bit o = true :=
  Iff.rfl

/-- What advancing is for: every mark moves back by the distance or leaves the window, and the new
high water is marked. -/
def slide (delta : Nat) (marks : Set Nat) : Set Nat :=
  insert 0 {p | ∃ o ∈ marks, p = o + delta ∧ p < windowSize}

theorem testBit_iff_mem_marked (w : Words 16) (h : offset < windowSize) :
    w.testBit offset = true ↔ offset ∈ marked w := by
  rw [Words.testBit_eq, mem_marked, and_iff_right h]

theorem marked_markWords (w : Words 16) (h : offset < windowSize) :
    marked (markWords w offset) = insert offset (marked w) := by
  ext o
  rw [Set.mem_insert_iff, mem_marked, mem_marked, bit_markWords w offset o h, Bool.or_eq_true,
    decide_eq_true_eq]
  constructor
  · rintro ⟨ho, he | hb⟩
    · exact .inl he
    · exact .inr ⟨ho, hb⟩
  · rintro (rfl | ⟨ho, hb⟩)
    · exact ⟨h, .inl rfl⟩
    · exact ⟨ho, .inr hb⟩

theorem marked_newWords : marked newWords = {0} := by
  ext o
  rw [mem_marked, bit_newWords, decide_eq_true_eq, Set.mem_singleton_iff, and_iff_right_iff_imp]
  rintro rfl
  decide

theorem marked_advanceWords (w : Words 16) (delta : Nat) :
    marked (advanceWords w delta) = slide delta (marked w) := by
  ext o
  rw [slide, Set.mem_insert_iff, mem_marked]
  constructor
  · rintro ⟨ho, hb⟩
    rw [bit_advanceWords w ho, Bool.or_eq_true, Bool.and_eq_true, decide_eq_true_eq,
      decide_eq_true_eq] at hb
    rcases hb with he | ⟨hle, hb⟩
    · exact .inl he
    · exact .inr ⟨o - delta, ⟨by omega, hb⟩, by omega, ho⟩
  · rintro (rfl | ⟨o', ⟨_, hb⟩, rfl, ho⟩)
    · refine ⟨by decide, ?_⟩
      rw [bit_advanceWords w (by decide), decide_eq_true rfl, Bool.true_or]
    · refine ⟨ho, ?_⟩
      rw [bit_advanceWords w ho, Nat.add_sub_cancel, hb, decide_eq_true (Nat.le_add_left ..),
        Bool.and_self, Bool.or_true]

inductive BitmapCall where
  | mark (offset : Nat) (h : offset < windowSize)
  | advance (delta : Nat)

def call (b : SlidingBitmap) : BitmapCall → SlidingBitmap
  | .mark offset h => b.mark offset h
  | .advance delta => b.advance delta

def BitmapCall.onMarks (marks : Set Nat) : BitmapCall → Set Nat
  | .mark offset _ => insert offset marks
  | .advance delta => slide delta marks

theorem marked_call (b : SlidingBitmap) (c : BitmapCall) :
    marked (b.call c).words = c.onMarks (marked b.words) := by
  cases c with
  | mark offset h => exact marked_markWords b.words h
  | advance delta => exact marked_advanceWords b.words delta

theorem marked_calls (b : SlidingBitmap) (calls : List BitmapCall) :
    marked (calls.foldl call b).words = calls.foldl BitmapCall.onMarks (marked b.words) := by
  induction calls generalizing b with
  | nil => rfl
  | cons c calls ih => rw [List.foldl_cons, List.foldl_cons, ih, marked_call]

/-- Whatever the words are, the three operations are those on the set they mark; so are whole runs of
a bitmap, which marks its high water at every point. -/
theorem bitmap_refines_set (w : Words 16) (delta : Nat) {offset : Nat}
    (hoffset : offset < windowSize) (calls : List BitmapCall) :
    marked (advanceWords w delta) =
        insert 0 {p | ∃ o ∈ marked w, p = o + delta ∧ p < windowSize} ∧
      marked (markWords w offset) = insert offset (marked w) ∧
      (w.testBit offset = true ↔ offset ∈ marked w) ∧
      marked (calls.foldl call new).words = calls.foldl BitmapCall.onMarks {0} ∧
      ((calls.foldl call new).isMarked offset = true ↔
        offset ∈ calls.foldl BitmapCall.onMarks {0}) ∧
      0 ∈ calls.foldl BitmapCall.onMarks {0} := by
  have hrun : marked (calls.foldl call new).words = calls.foldl BitmapCall.onMarks {0} := by
    rw [marked_calls, ← marked_newWords]
    rfl
  refine ⟨marked_advanceWords w delta, marked_markWords w hoffset,
    testBit_iff_mem_marked w hoffset, hrun, ?_, ?_⟩
  · rw [← hrun]
    exact testBit_iff_mem_marked _ hoffset
  · rw [← hrun]
    exact ⟨by decide, (calls.foldl call new).high⟩

/-- The mark at the end of the first word moves into the second one. -/
theorem bitmap_refines_set_carry :
    ([.mark 63 (by decide), .advance 1].foldl call new).isMarked 64 = true := by
  obtain ⟨-, -, -, -, hmem, -⟩ := bitmap_refines_set newWords 1
    (show 64 < windowSize by decide) [.mark 63 (by decide), .advance 1]
  exact hmem.2 (.inr ⟨63, .inl rfl, rfl, by decide⟩)

end SlidingBitmap

end Reconcile.Replay
