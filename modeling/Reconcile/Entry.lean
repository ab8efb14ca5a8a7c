import Mathlib.Algebra.Order.Ring.Nat

namespace Reconcile
set_option autoImplicit true

inductive State (V : Type) where
  | present (value : V)
  | tombstone
  deriving DecidableEq, Repr

/-- A dated register. The stamp type stands for the runtime's totally ordered `Timestamp`. -/
structure Entry (T V : Type) where
  stamp : T
  state : State V
  deriving DecidableEq, Repr

namespace Entry

def present (stamp : T) (value : V) : Entry T V := ⟨stamp, .present value⟩

def tombstone (stamp : T) : Entry T V := ⟨stamp, .tombstone⟩

def isTombstone (e : Entry T V) : Bool :=
  match e.state with
  | .present _ => false
  | .tombstone => true

def value (e : Entry T V) : Option V :=
  match e.state with
  | .present v => some v
  | .tombstone => none

def project (e : Entry T V) : State V := e.state

end Entry

/-- `Entry::merge` belongs to the register crate: it keeps the operand with the greater stamp,
and one of the two operands when the stamps are equal. -/
structure Merge (T V : Type) [LinearOrder T] where
  merge : Entry T V → Entry T V → Entry T V
  merge_of_lt : ∀ a b, a.stamp < b.stamp → merge a b = b
  merge_of_gt : ∀ a b, b.stamp < a.stamp → merge a b = a
  merge_of_eq : ∀ a b, a.stamp = b.stamp → merge a b = a ∨ merge a b = b

def Merge.keepLocal (T V : Type) [LinearOrder T] : Merge T V where
  merge a b := if a.stamp < b.stamp then b else a
  merge_of_lt _ _ h := if_pos h
  merge_of_gt _ _ h := if_neg (lt_asymm h)
  merge_of_eq _ _ h := .inl (if_neg (by rw [h]; exact lt_irrefl _))

namespace Merge

variable {T V : Type} [LinearOrder T] (M : Merge T V)

theorem merge_eq_or (a b : Entry T V) : M.merge a b = a ∨ M.merge a b = b := by
  rcases lt_trichotomy a.stamp b.stamp with h | h | h
  · exact .inr (M.merge_of_lt a b h)
  · exact M.merge_of_eq a b h
  · exact .inl (M.merge_of_gt a b h)

theorem left_le_merge (a b : Entry T V) : a.stamp ≤ (M.merge a b).stamp := by
  rcases lt_trichotomy a.stamp b.stamp with h | h | h
  · rw [M.merge_of_lt a b h]
    exact le_of_lt h
  · rcases M.merge_of_eq a b h with he | he <;> rw [he]
    exact le_of_eq h
  · rw [M.merge_of_gt a b h]

theorem right_le_merge (a b : Entry T V) : b.stamp ≤ (M.merge a b).stamp := by
  rcases lt_trichotomy a.stamp b.stamp with h | h | h
  · rw [M.merge_of_lt a b h]
  · rcases M.merge_of_eq a b h with he | he <;> rw [he]
    exact le_of_eq h.symm
  · rw [M.merge_of_gt a b h]
    exact le_of_lt h

end Merge

end Reconcile
