import Mathlib.Logic.Function.Basic

namespace Lib
set_option autoImplicit true

/-- What a batch of writes leaves behind: a value at each cell it touches. -/
def Overlay (ι : Type) (β : ι → Type) : Type := ∀ i, Option (β i)

namespace Overlay

variable {ι : Type} {β : ι → Type}

def empty : Overlay ι β := fun _ => none

def apply (p : Overlay ι β) (f : ∀ i, β i) : ∀ i, β i := fun i => (p i).getD (f i)

def followedBy (p q : Overlay ι β) : Overlay ι β := fun i => (q i).or (p i)

@[simp] theorem apply_empty (f : ∀ i, β i) : apply empty f = f := rfl

@[simp] theorem apply_followedBy (p q : Overlay ι β) (f : ∀ i, β i) :
    (p.followedBy q).apply f = q.apply (p.apply f) := by
  funext i
  simp only [apply, followedBy]
  cases q i <;> rfl

@[simp] theorem apply_apply (p : Overlay ι β) (f : ∀ i, β i) :
    p.apply (p.apply f) = p.apply f := by
  funext i
  simp only [apply]
  cases p i <;> rfl

/-- A state that already contains two consecutive batches absorbs both of them. -/
theorem apply_apply_absorb (p q : Overlay ι β) (f : ∀ i, β i) :
    q.apply (p.apply (q.apply (p.apply f))) = q.apply (p.apply f) := by
  have h := (p.followedBy q).apply_apply f
  simpa only [apply_followedBy] using h

end Overlay

end Lib
