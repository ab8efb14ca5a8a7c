import Mathlib.Data.List.Forall2

namespace Lib.Action
set_option autoImplicit true

variable {ε σ α β γ : Type}

/-- The state an action leaves, whether or not it fails. -/
def after (x : EStateM ε σ α) (s : σ) : σ :=
  match x s with
  | .ok _ s' => s'
  | .error _ s' => s'

/-- An action that leaves alone what `f` reads. -/
def Keeps (f : σ → γ) (x : EStateM ε σ α) : Prop := ∀ s, f (after x s) = f s

def ofExcept (wrap : ε' → ε) : Except ε' α → EStateM ε σ α
  | .ok a => pure a
  | .error err => throw (wrap err)

@[simp] theorem after_pure (a : α) (s : σ) : after (pure a : EStateM ε σ α) s = s := rfl

theorem after_eq_of_ok {x : EStateM ε σ α} (h : x s = .ok a s') : after x s = s' := by
  rw [after, h]

@[simp] theorem after_get_bind (k : σ → EStateM ε σ β) (s : σ) :
    after (get >>= k) s = after (k s) s := rfl

@[simp] theorem after_set_bind (t : σ) (k : PUnit → EStateM ε σ β) (s : σ) :
    after (set t >>= k) s = after (k ⟨⟩) t := rfl

@[simp] theorem after_modify_bind (g : σ → σ) (k : PUnit → EStateM ε σ β) (s : σ) :
    after (modify g >>= k) s = after (k ⟨⟩) (g s) := rfl

@[simp] theorem after_ofExcept (wrap : ε' → ε) (x : Except ε' α) (s : σ) :
    after (ofExcept wrap x : EStateM ε σ α) s = s := by
  cases x <;> rfl

/-- The first of two actions fails, or the second one goes on from where it got. -/
theorem after_bind (x : EStateM ε σ α) (k : α → EStateM ε σ β) (s : σ) :
    after (x >>= k) s = after x s ∨ ∃ a, after (x >>= k) s = after (k a) (after x s) := by
  change after (EStateM.bind x k) s = _ ∨ ∃ a, after (EStateM.bind x k) s = _
  unfold after EStateM.bind
  cases x s with
  | ok a s' => exact .inr ⟨a, rfl⟩
  | error e s' => exact .inl rfl

@[simp] theorem after_bind_pure (x : EStateM ε σ α) (g : α → β) (s : σ) :
    after (x >>= fun a => pure (g a)) s = after x s := by
  rcases after_bind x (fun a => pure (g a)) s with h | ⟨a, h⟩
  · exact h
  · rw [h, after_pure]

namespace Keeps

variable {f : σ → γ}

theorem pure (a : α) : Keeps f (Pure.pure a : EStateM ε σ α) := fun _ => rfl

theorem ofExcept (wrap : ε' → ε) (x : Except ε' α) :
    Keeps f (Action.ofExcept wrap x : EStateM ε σ α) := fun s => by rw [after_ofExcept]

theorem bind {x : EStateM ε σ α} {k : α → EStateM ε σ β} (hx : Keeps f x)
    (hk : ∀ a, Keeps f (k a)) : Keeps f (x >>= k) := by
  intro s
  rcases after_bind x k s with h | ⟨a, h⟩
  · rw [h, hx]
  · rw [h, hk, hx]

theorem get_bind {k : σ → EStateM ε σ β} (hk : ∀ s, f (after (k s) s) = f s) :
    Keeps f (get >>= k) := hk

theorem modify_bind {g : σ → σ} {k : PUnit → EStateM ε σ β} (hg : ∀ s, f (g s) = f s)
    (hk : Keeps f (k ⟨⟩)) : Keeps f (modify g >>= k) := fun s => (hk (g s)).trans (hg s)

theorem mapM {g : β → EStateM ε σ α} (h : ∀ b, Keeps f (g b)) (l : List β) :
    Keeps f (l.mapM g) := by
  induction l with
  | nil =>
    rw [List.mapM_nil]
    exact pure []
  | cons b l ih =>
    rw [List.mapM_cons]
    exact (h b).bind fun a => ih.bind fun as => pure _

end Keeps

/-- The action ends with a result and state as `Q` says, or with an error and state as `R` says. -/
def Yields (x : EStateM ε σ α) (s : σ) (Q : α → σ → Prop) (R : ε → σ → Prop) : Prop :=
  match x s with
  | .ok a s' => Q a s'
  | .error e s' => R e s'

namespace Yields

variable {Q Q' : α → σ → Prop} {R R' : ε → σ → Prop} {x : EStateM ε σ α} {s s' : σ}

theorem ok (h : Yields x s Q R) (hx : x s = .ok a s') : Q a s' := by
  unfold Yields at h
  rwa [hx] at h

theorem error (h : Yields x s Q R) (hx : x s = .error e s') : R e s' := by
  unfold Yields at h
  rwa [hx] at h

theorem after {I : σ → Prop} (h : Yields x s Q R) (hQ : ∀ a s', Q a s' → I s')
    (hR : ∀ e s', R e s' → I s') : I (after x s) := by
  unfold Yields at h
  unfold Action.after
  cases hx : x s with
  | ok a s' =>
    rw [hx] at h
    exact hQ a s' h
  | error e s' =>
    rw [hx] at h
    exact hR e s' h

theorem returns (h : Yields x s Q R) (hR : ∀ e s', ¬R e s') : ∃ a s', x s = .ok a s' ∧ Q a s' := by
  cases hx : x s with
  | ok a s' => exact ⟨a, s', rfl, h.ok hx⟩
  | error e s' => exact absurd (h.error hx) (hR e s')

theorem imp (h : Yields x s Q R) (hQ : ∀ a s', Q a s' → Q' a s') (hR : ∀ e s', R e s' → R' e s') :
    Yields x s Q' R' := by
  unfold Yields at h ⊢
  split at h
  · exact hQ _ _ h
  · exact hR _ _ h

theorem pure (h : Q a s) : Yields (Pure.pure a : EStateM ε σ α) s Q R := h

theorem ofExcept {wrap : ε' → ε} {y : Except ε' α} (hok : ∀ a, y = .ok a → Q a s)
    (herr : ∀ e, y = .error e → R (wrap e) s) : Yields (Action.ofExcept wrap y) s Q R := by
  cases y with
  | ok a => exact hok a rfl
  | error e => exact herr e rfl

theorem bind {k : α → EStateM ε σ β} {Q : β → σ → Prop} (hx : Yields x s Q' R)
    (hk : ∀ a s', Q' a s' → Yields (k a) s' Q R) : Yields (x >>= k) s Q R := by
  change match EStateM.bind x k s with
    | .ok a s' => Q a s'
    | .error e s' => R e s'
  unfold EStateM.bind
  cases h : x s with
  | ok a s' => exact hk a s' (hx.ok h)
  | error e s' => exact hx.error h

theorem get_bind {k : σ → EStateM ε σ α} (h : Yields (k s) s Q R) : Yields (get >>= k) s Q R := h

theorem modify_bind {g : σ → σ} {k : PUnit → EStateM ε σ α} (h : Yields (k ⟨⟩) (g s) Q R) :
    Yields (modify g >>= k) s Q R := h

theorem ofExcept_bind {wrap : ε' → ε} {y : Except ε' β} {k : β → EStateM ε σ α}
    (hok : ∀ b, y = .ok b → Yields (k b) s Q R) (herr : ∀ e, y = .error e → R (wrap e) s) :
    Yields (Action.ofExcept wrap y >>= k) s Q R := by
  cases y with
  | ok b => exact hok b rfl
  | error e => exact herr e rfl

theorem mapM {g : β → EStateM ε σ α} {I : σ → Prop} {S : β → α → Prop} {l : List β}
    (h : ∀ b ∈ l, ∀ s, I s → Yields (g b) s (fun a s' => S b a ∧ I s') R) (hs : I s) :
    Yields (l.mapM g) s (fun as s' => List.Forall₂ S l as ∧ I s') R := by
  induction l generalizing s with
  | nil =>
    rw [List.mapM_nil]
    exact pure ⟨.nil, hs⟩
  | cons b l ih =>
    rw [List.mapM_cons]
    refine (h b List.mem_cons_self s hs).bind fun a t hat => ?_
    refine (ih (fun c hc => h c (List.mem_cons_of_mem b hc)) hat.2).bind fun as t' hast => ?_
    exact pure ⟨.cons hat.1 hast.1, hast.2⟩

end Yields

end Lib.Action
