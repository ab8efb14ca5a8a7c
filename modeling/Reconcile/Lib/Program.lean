import Mathlib.Init

namespace Lib
set_option autoImplicit true

/-- A sequential program that issues calls `o : Op`, each answered by a value of `Ans o`. -/
inductive Prog (Op : Type) (Ans : Op → Type) (α : Type) : Type where
  | pure (a : α)
  | call (o : Op) (next : Ans o → Prog Op Ans α)

/-- How a state answers calls. The environment decides `ε`: success, a fault, an order. -/
structure Handler (Op : Type) (Ans : Op → Type) (σ ε : Type) where
  exec : (o : Op) → ε → σ → Ans o × σ

/-- What other threads may do to the state between two calls. -/
structure Rely (σ : Type) where
  rel : σ → σ → Prop
  refl : ∀ s, rel s s
  trans : ∀ {s t u}, rel s t → rel t u → rel s u

def Rely.alone (σ : Type) : Rely σ := ⟨Eq, fun _ => rfl, Eq.trans⟩

def Rely.second (σ : Type) (R : Rely τ) : Rely (σ × τ) where
  rel s t := s.1 = t.1 ∧ R.rel s.2 t.2
  refl s := ⟨rfl, R.refl s.2⟩
  trans h h' := ⟨h.1.trans h'.1, R.trans h.2 h'.2⟩

namespace Prog

variable {Op Op' : Type} {Ans : Op → Type} {Ans' : Op' → Type} {α β σ τ ε : Type}

def bind : Prog Op Ans α → (α → Prog Op Ans β) → Prog Op Ans β
  | .pure a, f => f a
  | .call o next, f => .call o (fun r => (next r).bind f)

instance : Monad (Prog Op Ans) where
  pure := .pure
  bind := .bind

theorem bind_pure (p : Prog Op Ans α) : p.bind .pure = p := by
  induction p with
  | pure a => rfl
  | call o next ih => exact congrArg (call o) (funext ih)

theorem bind_assoc (p : Prog Op Ans α) (f : α → Prog Op Ans β) (g : β → Prog Op Ans γ) :
    (p.bind f).bind g = p.bind fun a => (f a).bind g := by
  induction p with
  | pure a => rfl
  | call o next ih => exact congrArg (call o) (funext ih)

instance : LawfulMonad (Prog Op Ans) := LawfulMonad.mk' _ bind_pure (fun _ _ => rfl) bind_assoc

def perform (o : Op) : Prog Op Ans (Ans o) := .call o .pure

def inl : Prog Op Ans α → Prog (Op ⊕ Op') (Sum.elim Ans Ans') α
  | .pure a => .pure a
  | .call o next => .call (.inl o) (fun r => (next r).inl)

def step (H : Handler Op Ans σ ε) (e : ε) : Prog Op Ans α × σ → Prog Op Ans α × σ
  | (.pure a, s) => (.pure a, s)
  | (.call o next, s) => (next (H.exec o e s).1, (H.exec o e s).2)

/-- Some calls of a program; what is left of it stands beside the state reached. -/
def run (H : Handler Op Ans σ ε) (script : List ε) (c : Prog Op Ans α × σ) :
    Prog Op Ans α × σ := script.foldl (fun c e => step H e c) c

def eval (H : Handler Op Ans σ ε) (e : ε) : Prog Op Ans α → σ → α × σ
  | .pure a, s => (a, s)
  | .call o next, s => (next (H.exec o e s).1).eval H e (H.exec o e s).2

theorem eval_bind (H : Handler Op Ans σ ε) (e : ε) (p : Prog Op Ans α)
    (f : α → Prog Op Ans β) (s : σ) :
    eval H e (p.bind f) s = eval H e (f (eval H e p s).1) (eval H e p s).2 := by
  induction p generalizing s with
  | pure a => rfl
  | call o next ih => exact ih _ _

theorem exists_script (H : Handler Op Ans σ ε) (e : ε) (p : Prog Op Ans α)
    (f : α → Prog Op Ans β) (s : σ) :
    ∃ script, ∀ rest, run H (script ++ rest) (p.bind f, s) =
      run H rest (f (eval H e p s).1, (eval H e p s).2) := by
  induction p generalizing s with
  | pure a => exact ⟨[], fun _ => rfl⟩
  | call o next ih =>
    obtain ⟨script, h⟩ := ih (H.exec o e s).1 (H.exec o e s).2
    exact ⟨e :: script, h⟩

/-- `I` holds at every state `p` can be found in, and `Q` where it returns, as long as the
environment's decisions are admitted and other threads keep to the rely. -/
def Always (H : Handler Op Ans σ ε) (R : Rely σ) (adm : Op → ε → σ → Prop) (I : σ → Prop) :
    Prog Op Ans α → (α → σ → Prop) → σ → Prop
  | .pure a, Q, s => ∀ s', R.rel s s' → I s' ∧ Q a s'
  | .call o next, Q, s => ∀ s', R.rel s s' → I s' ∧ ∀ e, adm o e s' →
      Always H R adm I (next (H.exec o e s').1) Q (H.exec o e s').2

variable {H : Handler Op Ans σ ε} {R : Rely σ} {adm : Op → ε → σ → Prop} {I J : σ → Prop}

theorem Always.inv {p : Prog Op Ans α} {Q : α → σ → Prop} {s : σ}
    (h : Always H R adm I p Q s) : I s := by
  cases p with
  | pure a => exact (h s (R.refl s)).1
  | call o next => exact (h s (R.refl s)).1

theorem Always.ret {a : α} {Q : α → σ → Prop} {s : σ}
    (h : Always H R adm I (.pure a) Q s) : Q a s := (h s (R.refl s)).2

theorem Always.interfere {p : Prog Op Ans α} {Q : α → σ → Prop} {s s' : σ}
    (h : Always H R adm I p Q s) (hr : R.rel s s') : Always H R adm I p Q s' := by
  cases p with
  | pure a => exact fun t ht => h t (R.trans hr ht)
  | call o next => exact fun t ht => h t (R.trans hr ht)

theorem Always.step {o : Op} {next : Ans o → Prog Op Ans α} {Q : α → σ → Prop} {s : σ} {e : ε}
    (h : Always H R adm I (.call o next) Q s) (he : adm o e s) :
    Always H R adm I (next (H.exec o e s).1) Q (H.exec o e s).2 :=
  (h s (R.refl s)).2 e he

theorem Always.mono {p : Prog Op Ans α} {Q Q' : α → σ → Prop} {s : σ}
    (h : Always H R adm I p Q s) (hI : ∀ s, I s → J s) (hQ : ∀ a s, Q a s → Q' a s) :
    Always H R adm J p Q' s := by
  induction p generalizing s with
  | pure a => exact fun t ht => ⟨hI t (h t ht).1, hQ a t (h t ht).2⟩
  | call o next ih =>
    intro t ht
    exact ⟨hI t (h t ht).1, fun e he => ih _ ((h t ht).2 e he)⟩

theorem Always.bind {p : Prog Op Ans α} {f : α → Prog Op Ans β} {Q' : α → σ → Prop}
    {Q : β → σ → Prop} {s : σ} (h : Always H R adm I p Q' s)
    (hf : ∀ a t, I t → Q' a t → Always H R adm I (f a) Q t) :
    Always H R adm I (p.bind f) Q s := by
  induction p generalizing s with
  | pure a => exact hf a s h.inv h.ret
  | call o next ih =>
    intro t ht
    exact ⟨(h t ht).1, fun e he => ih _ ((h t ht).2 e he)⟩

theorem Always.run {p : Prog Op Ans α} {Q : α → σ → Prop} {s : σ}
    (h : Always H R (fun _ _ _ => True) I p Q s) (script : List ε) :
    Always H R (fun _ _ _ => True) I (Prog.run H script (p, s)).1 Q
      (Prog.run H script (p, s)).2 := by
  induction script generalizing p s with
  | nil => exact h
  | cons e script ih =>
    cases p with
    | pure a => exact ih h
    | call o next => exact ih (h.step trivial)

theorem Always.eval {p : Prog Op Ans α} {Q : α → σ → Prop} {s : σ}
    (h : Always H R (fun _ _ _ => True) I p Q s) (e : ε) :
    Q (Prog.eval H e p s).1 (Prog.eval H e p s).2 := by
  induction p generalizing s with
  | pure a => exact h.ret
  | call o next ih => exact ih _ (h.step trivial)

/-- A program of one component, run beside threads that only touch the other. -/
theorem Always.inl {H : Handler Op Ans σ ε}
    {H' : Handler (Op ⊕ Op') (Sum.elim Ans Ans') (σ × τ) ε} {adm : Op → ε → σ → Prop}
    {adm' : Op ⊕ Op' → ε → σ × τ → Prop} {R : Rely τ} {I : σ → Prop} {p : Prog Op Ans α}
    {Q : α → σ → Prop} {s : σ} {t₀ t : τ}
    (h : Always H (.alone σ) adm I p Q s)
    (hH : ∀ o e s t, H'.exec (.inl o) e (s, t) = ((H.exec o e s).1, (H.exec o e s).2, t))
    (ha : ∀ o e s t, R.rel t₀ t → adm' (.inl o) e (s, t) → adm o e s) (ht : R.rel t₀ t) :
    Always H' (.second σ R) adm' (fun c => I c.1 ∧ R.rel t₀ c.2)
      (p.inl : Prog (Op ⊕ Op') (Sum.elim Ans Ans') α) (fun a c => Q a c.1 ∧ R.rel t₀ c.2) (s, t) := by
  induction p generalizing s t with
  | pure a =>
    rintro ⟨s', t'⟩ ⟨hs, ht'⟩
    cases hs
    have hr := R.trans ht ht'
    exact ⟨⟨h.inv, hr⟩, h.ret, hr⟩
  | call o next ih =>
    rintro ⟨s', t'⟩ ⟨hs, ht'⟩
    cases hs
    have hr := R.trans ht ht'
    refine ⟨⟨h.inv, hr⟩, ?_⟩
    intro e he
    rw [hH]
    exact ih _ (h.step (ha o e s t' hr he)) hr

end Prog

end Lib
