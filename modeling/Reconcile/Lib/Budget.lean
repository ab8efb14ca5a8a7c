import Mathlib.Algebra.Order.Monoid.Canonical.Defs
import Reconcile.Lib.Program

namespace Lib.Prog
set_option autoImplicit true

variable {Op : Type} {Ans : Op → Type} {α β σ ε M : Type}
variable [AddCommMonoid M]

def spent (H : Handler Op Ans σ ε) (cost : (o : Op) → Ans o → M) :
    List ε → Prog Op Ans α × σ → M
  | [], _ => 0
  | _ :: _, (.pure _, _) => 0
  | e :: script, (.call o next, s) => cost o (H.exec o e s).1 +
      spent H cost script (next (H.exec o e s).1, (H.exec o e s).2)

variable [PartialOrder M]

/-- Whatever the environment decides, the program stays within its budget, and `Q` holds where it
returns. -/
def Spends (H : Handler Op Ans σ ε) (cost : (o : Op) → Ans o → M) :
    Prog Op Ans α → M → (α → σ → Prop) → σ → Prop
  | .pure a, _, Q, s => Q a s
  | .call o next, budget, Q, s => ∀ e, ∃ rest, cost o (H.exec o e s).1 + rest ≤ budget ∧
      Spends H cost (next (H.exec o e s).1) rest Q (H.exec o e s).2

variable {H : Handler Op Ans σ ε} {cost : (o : Op) → Ans o → M}

theorem Spends.mono {p : Prog Op Ans α} {b b' : M} {Q Q' : α → σ → Prop} {s : σ}
    (h : Spends H cost p b Q s) (hb : b ≤ b') (hQ : ∀ a s, Q a s → Q' a s) :
    Spends H cost p b' Q' s := by
  induction p generalizing b b' s with
  | pure a => exact hQ a s h
  | call o next ih =>
    intro e
    obtain ⟨rest, hr, hn⟩ := h e
    exact ⟨rest, hr.trans hb, ih _ hn le_rfl⟩

variable [CanonicallyOrderedAdd M]

theorem Spends.spent_le {p : Prog Op Ans α} {budget : M} {Q : α → σ → Prop} {s : σ}
    (h : Spends H cost p budget Q s) (script : List ε) : spent H cost script (p, s) ≤ budget := by
  induction script generalizing p budget s with
  | nil => exact zero_le
  | cons e script ih =>
    cases p with
    | pure a => exact zero_le
    | call o next =>
      obtain ⟨rest, hr, hn⟩ := h e
      calc spent H cost (e :: script) (.call o next, s)
        _ ≤ cost o (H.exec o e s).1 + rest := by
          rw [spent]
          gcongr
          exact ih hn
        _ ≤ budget := hr

theorem Spends.bind {p : Prog Op Ans α} {f : α → Prog Op Ans β} {b b' : M} {Q' : α → σ → Prop}
    {Q : β → σ → Prop} {s : σ} (h : Spends H cost p b Q' s)
    (hf : ∀ a t, Q' a t → Spends H cost (f a) b' Q t) :
    Spends H cost (p.bind f) (b + b') Q s := by
  induction p generalizing b s with
  | pure a => exact (hf a s h).mono le_add_self fun _ _ hq => hq
  | call o next ih =>
    intro e
    obtain ⟨rest, hr, hn⟩ := h e
    refine ⟨rest + b', ?_, ih _ hn⟩
    rw [← add_assoc]
    gcongr

end Lib.Prog
