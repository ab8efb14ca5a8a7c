import Mathlib.Data.List.Sort
import Mathlib.Data.List.Perm.Subperm

namespace Lib.Sorted
set_option autoImplicit true

variable {α β : Type} [LinearOrder β] {f : α → β}

theorem pairwise_lt_mergeSort {l : List α} (h : (l.map f).Nodup) :
    (l.mergeSort fun a b => f a ≤ f b).Pairwise (f · < f ·) := by
  have hle : (l.mergeSort fun a b => f a ≤ f b).Pairwise (f · ≤ f ·) := by
    have hsorted := @List.pairwise_mergeSort α (fun a b => decide (f a ≤ f b))
      (fun a b c => by simpa using le_trans) (fun a b => by simpa using le_total (f a) (f b)) l
    exact hsorted.imp fun hab => by simpa using hab
  have hne : (l.mergeSort fun a b => f a ≤ f b).Pairwise (f · ≠ f ·) :=
    List.pairwise_map.1 (((List.mergeSort_perm l _).map f).nodup_iff.2 h)
  exact (hle.and hne).imp fun hab => lt_of_le_of_ne hab.1 hab.2

theorem nodup_of_pairwise {l : List α} (h : l.Pairwise (f · < f ·)) : l.Nodup := by
  apply h.imp
  rintro a b hlt rfl
  exact lt_irrefl _ hlt

theorem eq_of_mem_iff {l l' : List α} (h : l.Pairwise (f · < f ·)) (h' : l'.Pairwise (f · < f ·))
    (hmem : ∀ x, x ∈ l ↔ x ∈ l') : l = l' := by
  have hperm : l.Perm l' :=
    (List.perm_ext_iff_of_nodup (nodup_of_pairwise h) (nodup_of_pairwise h')).2 hmem
  exact hperm.eq_of_pairwise (fun a b _ _ hab hba => absurd hab hba.asymm) h h'

/-- The first entries of a list in order are those with few entries below them. -/
theorem mem_take_iff {l : List α} (h : l.Pairwise (f · < f ·)) {x : α} (hx : x ∈ l) (m : Nat) :
    x ∈ l.take m ↔ (l.filter (f · < f x)).length < m := by
  induction l generalizing m with
  | nil => cases hx
  | cons a l ih =>
    obtain ⟨ha, hl⟩ := List.pairwise_cons.1 h
    cases m with
    | zero => simp
    | succ m =>
      rw [List.take_succ_cons, List.mem_cons]
      rcases List.mem_cons.1 hx with rfl | hx
      · have hnone : l.filter (f · < f x) = [] :=
          List.filter_eq_nil_iff.2 fun b hb => by simpa using (ha b hb).le
        simp [hnone]
      · have hlt := ha x hx
        have hne : x ≠ a := by
          rintro rfl
          exact lt_irrefl _ hlt
        rw [List.filter_cons_of_pos (by simpa using hlt), List.length_cons, ih hl hx m]
        simp only [hne, false_or]
        omega

theorem mem_take_of_subset [DecidableEq α] {l l' : List α} (h : l.Pairwise (f · < f ·))
    (h' : l'.Pairwise (f · < f ·)) (hsub : l ⊆ l') {x : α} (hx : x ∈ l) {m : Nat}
    (hm : x ∈ l'.take m) : x ∈ l.take m := by
  rw [mem_take_iff h hx]
  rw [mem_take_iff h' (hsub hx)] at hm
  have hbelow : l.filter (f · < f x) ⊆ l'.filter (f · < f x) := by
    intro a ha
    rw [List.mem_filter] at ha ⊢
    exact ⟨hsub ha.1, ha.2⟩
  have hle := (((nodup_of_pairwise h).filter _).subperm hbelow).length_le
  exact hle.trans_lt hm

end Lib.Sorted
