import Mathlib.Algebra.BigOperators.Group.List.Basic
import Mathlib.Algebra.Order.Ring.Nat

namespace Lib.Packing
set_option autoImplicit true

variable {M : Type} (size : M → Nat) (capacity : Nat)

def total (group : List M) : Nat := (group.map size).sum

def flush (group : List M) : List (List M) := if group = [] then [] else [group]

/-- Fill one group after the other in order; an item that is too large for any group is one by
itself. -/
def pack : List M → List M → List (List M)
  | [], group => flush group
  | m :: items, group =>
    if total size group + size m ≤ capacity then pack items (group ++ [m])
    else
      flush group ++
        if size m ≤ capacity then pack items [m] else [m] :: pack items []

variable {size capacity}

theorem flatten_flush (group : List M) : (flush group).flatten = group := by
  unfold flush
  split
  · next h => exact h.symm
  · rw [List.flatten_singleton]

theorem mem_flush {group g : List M} (h : g ∈ flush group) : g = group := by
  unfold flush at h
  split at h
  · cases h
  · exact List.mem_singleton.1 h

theorem flatten_pack (items group : List M) :
    (pack size capacity items group).flatten = group ++ items := by
  induction items generalizing group with
  | nil => rw [pack, flatten_flush, List.append_nil]
  | cons m items ih =>
    rw [pack]
    split
    · rw [ih, List.append_assoc, List.singleton_append]
    · rw [List.flatten_append, flatten_flush]
      split
      · rw [ih, List.singleton_append]
      · rw [List.flatten_cons, ih, List.nil_append, List.singleton_append]

/-- A group is within the capacity, or a single item. -/
def Sound (size : M → Nat) (capacity : Nat) (group : List M) : Prop :=
  total size group ≤ capacity ∨ group.length = 1

theorem sound_pack {group : List M} (h : Sound size capacity group) (items : List M) :
    ∀ g ∈ pack size capacity items group, Sound size capacity g := by
  induction items generalizing group with
  | nil =>
    intro g hg
    rw [mem_flush hg]
    exact h
  | cons m items ih =>
    rw [pack]
    split
    · next hfits =>
      apply ih
      left
      rw [total, List.map_append, List.sum_append, List.map_singleton, List.sum_singleton]
      exact hfits
    · intro g hg
      rcases List.mem_append.1 hg with hg | hg
      · rw [mem_flush hg]
        exact h
      · split at hg
        · exact ih (.inr rfl) g hg
        · rcases List.mem_cons.1 hg with rfl | hg
          · exact .inr rfl
          · exact ih (.inl (Nat.zero_le _)) g hg

end Lib.Packing
