import Mathlib.Order.Interval.Set.LinearOrder
import Mathlib.Order.MinMax

namespace Lib.Separated
set_option autoImplicit true

variable {L : Type} [LinearOrder L]

def Covers (l : List (L × L)) (x : L) : Prop := ∃ r ∈ l, r.1 ≤ x ∧ x < r.2

/-- Non-empty intervals in order, with points left out between any two. -/
structure Normal (l : List (L × L)) : Prop where
  proper : ∀ r ∈ l, r.1 < r.2
  apart : l.Pairwise fun r s => r.2 < s.1

theorem covers_cons {r : L × L} {l : List (L × L)} {x : L} :
    Covers (r :: l) x ↔ (r.1 ≤ x ∧ x < r.2) ∨ Covers l x := by
  simp only [Covers, List.mem_cons, exists_eq_or_imp]

theorem covers_append {l l' : List (L × L)} {x : L} :
    Covers (l ++ l') x ↔ Covers l x ∨ Covers l' x := by
  simp only [Covers, List.mem_append, or_and_right, exists_or]

theorem covers_perm {l l' : List (L × L)} (h : l.Perm l') (x : L) : Covers l x ↔ Covers l' x := by
  simp only [Covers, h.mem_iff]

theorem Normal.tail {r : L × L} {l : List (L × L)} (h : Normal (r :: l)) : Normal l :=
  ⟨fun s hs => h.proper s (List.mem_cons_of_mem _ hs), (List.pairwise_cons.1 h.apart).2⟩

theorem Normal.lt_of_covers {r : L × L} {l : List (L × L)} {x : L} (h : Normal (r :: l))
    (hx : Covers l x) : r.2 < x := by
  obtain ⟨s, hs, hle, _⟩ := hx
  exact ((List.pairwise_cons.1 h.apart).1 s hs).trans_le hle

theorem Normal.start_le {r : L × L} {l : List (L × L)} {x : L} (h : Normal (r :: l))
    (hx : Covers (r :: l) x) : r.1 ≤ x := by
  rcases covers_cons.1 hx with hx | hx
  · exact hx.1
  · exact ((h.proper r List.mem_cons_self).trans (h.lt_of_covers hx)).le

theorem Normal.covers_start {r : L × L} {l : List (L × L)} (h : Normal (r :: l)) :
    Covers (r :: l) r.1 :=
  covers_cons.2 (.inl ⟨le_rfl, h.proper r List.mem_cons_self⟩)

theorem Normal.not_covers_stop {r : L × L} {l : List (L × L)} (h : Normal (r :: l)) :
    ¬Covers (r :: l) r.2 := by
  intro hx
  rcases covers_cons.1 hx with hx | hx
  · exact lt_irrefl _ hx.2
  · exact lt_irrefl _ (h.lt_of_covers hx)

theorem Normal.stop_le {r s : L × L} {l l' : List (L × L)} (h : Normal (r :: l))
    (h' : Normal (s :: l')) (hpoints : ∀ x, Covers (r :: l) x ↔ Covers (s :: l') x) :
    s.2 ≤ r.2 := by
  refine not_lt.1 fun hlt => h.not_covers_stop ((hpoints _).2 (covers_cons.2 (.inl ⟨?_, hlt⟩)))
  have hstart := h'.start_le ((hpoints _).1 h.covers_start)
  exact hstart.trans (h.proper r List.mem_cons_self).le

theorem Normal.covers_tail {r : L × L} {l l' : List (L × L)} (h : Normal (r :: l))
    (hpoints : ∀ x, Covers (r :: l) x ↔ Covers (r :: l') x) {x : L} (hx : Covers l x) :
    Covers l' x := by
  rcases covers_cons.1 ((hpoints x).1 (covers_cons.2 (.inr hx))) with hin | hin
  · exact absurd hin.2 (h.lt_of_covers hx).not_gt
  · exact hin

theorem Normal.ext {l l' : List (L × L)} (h : Normal l) (h' : Normal l')
    (hpoints : ∀ x, Covers l x ↔ Covers l' x) : l = l' := by
  induction l generalizing l' with
  | nil =>
    cases l' with
    | nil => rfl
    | cons s l' =>
      obtain ⟨_, hnone, _⟩ := (hpoints _).2 h'.covers_start
      cases hnone
  | cons r l ih =>
    cases l' with
    | nil =>
      obtain ⟨_, hnone, _⟩ := (hpoints _).1 h.covers_start
      cases hnone
    | cons s l' =>
      have hstart : r.1 = s.1 := le_antisymm (h.start_le ((hpoints _).2 h'.covers_start))
        (h'.start_le ((hpoints _).1 h.covers_start))
      have hstop : r.2 = s.2 := le_antisymm (h'.stop_le h fun x => (hpoints x).symm)
        (h.stop_le h' hpoints)
      have heq : r = s := Prod.ext hstart hstop
      subst heq
      have htail : ∀ x, Covers l x ↔ Covers l' x := fun x =>
        ⟨h.covers_tail hpoints, h'.covers_tail fun x => (hpoints x).symm⟩
      rw [ih h.tail h'.tail htail]

/-- Take in an interval that starts last: it extends the one pushed last when it meets it. The
intervals are kept in reverse. -/
def absorb (acc : List (L × L)) (r : L × L) : List (L × L) :=
  match acc with
  | [] => [r]
  | last :: rest =>
    if r.1 ≤ last.2 then (last.1, max last.2 r.2) :: rest else r :: last :: rest

structure Absorbed (acc : List (L × L)) : Prop where
  proper : ∀ r ∈ acc, r.1 < r.2
  apart : acc.Pairwise fun r s => s.2 < r.1

theorem absorb_spec {acc : List (L × L)} {r : L × L} (h : Absorbed acc) (hr : r.1 < r.2)
    (hlast : ∀ last ∈ acc.head?, last.1 ≤ r.1) :
    Absorbed (absorb acc r) ∧ (∀ x, Covers (absorb acc r) x ↔ Covers acc x ∨ (r.1 ≤ x ∧ x < r.2)) ∧
      ∀ last ∈ (absorb acc r).head?, last.1 ≤ r.1 := by
  cases acc with
  | nil =>
    refine ⟨⟨?_, List.pairwise_singleton ..⟩, ?_, ?_⟩
    · rintro s hs
      rw [List.mem_singleton.1 hs]
      exact hr
    · intro x
      rw [absorb, covers_cons, or_comm]
    · rintro last ⟨⟩
      exact le_rfl
  | cons last rest =>
    have hle := hlast last rfl
    obtain ⟨hfirst, hrest⟩ := List.pairwise_cons.1 h.apart
    rw [absorb]
    split
    · next hmeets =>
      refine ⟨⟨?_, List.pairwise_cons.2 ⟨hfirst, hrest⟩⟩, ?_, ?_⟩
      · rintro s (_ | ⟨_, hs⟩)
        · exact lt_max_of_lt_left (h.proper last List.mem_cons_self)
        · exact h.proper s (List.mem_cons_of_mem _ hs)
      · -- the two meet, so the interval from the first start to the later end is their union
        intro x
        have hunion := Set.ext_iff.1 (Set.Ico_union_Ico' hmeets (hle.trans hr.le)) x
        simp only [Set.mem_union, Set.mem_Ico, min_eq_left hle] at hunion
        rw [covers_cons, covers_cons, ← hunion, or_right_comm]
      · rintro s ⟨⟩
        exact hle
    · next hmeets =>
      have hbefore := not_le.1 hmeets
      refine ⟨⟨?_, List.pairwise_cons.2 ⟨?_, h.apart⟩⟩, ?_, ?_⟩
      · rintro s (_ | ⟨_, hs⟩)
        · exact hr
        · exact h.proper s hs
      · rintro s (_ | ⟨_, hs⟩)
        · exact hbefore
        · exact (hfirst s hs).trans ((h.proper last List.mem_cons_self).trans hbefore)
      · intro x
        rw [covers_cons, or_comm]
      · rintro s ⟨⟩
        exact le_rfl

theorem foldl_absorb_spec {acc l : List (L × L)} (h : Absorbed acc) (hl : ∀ r ∈ l, r.1 < r.2)
    (hsorted : l.Pairwise fun r s => r.1 ≤ s.1) (hlast : ∀ last ∈ acc.head?, ∀ r ∈ l, last.1 ≤ r.1) :
    Absorbed (l.foldl absorb acc) ∧
      ∀ x, Covers (l.foldl absorb acc) x ↔ Covers acc x ∨ Covers l x := by
  induction l generalizing acc with
  | nil =>
    refine ⟨h, fun x => ?_⟩
    simp only [List.foldl_nil, Covers, List.not_mem_nil, false_and, exists_false, or_false]
  | cons r l ih =>
    obtain ⟨hafter, hsorted⟩ := List.pairwise_cons.1 hsorted
    obtain ⟨hacc, hpoints, hstart⟩ := absorb_spec h (hl r List.mem_cons_self)
      fun last hmem => hlast last hmem r List.mem_cons_self
    obtain ⟨habsorbed, hall⟩ := ih hacc (fun s hs => hl s (List.mem_cons_of_mem _ hs)) hsorted
      fun last hmem s hs => (hstart last hmem).trans (hafter s hs)
    refine ⟨habsorbed, fun x => ?_⟩
    rw [List.foldl_cons, hall, hpoints, covers_cons, or_assoc]

/-- Sorted by their starts and absorbed one after the other, intervals are in normal form and cover
the same points. -/
theorem normal_absorb {l : List (L × L)} (hl : ∀ r ∈ l, r.1 < r.2)
    (hsorted : l.Pairwise fun r s => r.1 ≤ s.1) :
    Normal (l.foldl absorb []).reverse ∧
      ∀ x, Covers (l.foldl absorb []).reverse x ↔ Covers l x := by
  obtain ⟨habsorbed, hpoints⟩ := foldl_absorb_spec ⟨fun _ h => absurd h List.not_mem_nil, .nil⟩ hl
    hsorted fun _ hmem => absurd hmem (by rintro ⟨⟩)
  refine ⟨⟨fun r hr => habsorbed.proper r (List.mem_reverse.1 hr),
    List.pairwise_reverse.2 habsorbed.apart⟩, fun x => ?_⟩
  rw [covers_perm (List.reverse_perm _), hpoints]
  simp only [Covers, List.not_mem_nil, false_and, exists_false, false_or]

end Lib.Separated
