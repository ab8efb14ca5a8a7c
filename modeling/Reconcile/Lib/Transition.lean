import Mathlib.Init

namespace Lib
set_option autoImplicit true

/-- The states a partial step function reaches, with the events taken, oldest first. -/
inductive Runs (step : S → E → Option S) (s₀ : S) : List E → S → Prop where
  | start : Runs step s₀ [] s₀
  | snoc (h : Runs step s₀ es s) (hs : step s e = some s') : Runs step s₀ (es ++ [e]) s'

/-- The states a step function with outputs reaches, with what went in and came out at each step. -/
inductive Traces (step : S → E → O × S) (s₀ : S) : List (E × O) → S → Prop where
  | start : Traces step s₀ [] s₀
  | snoc (h : Traces step s₀ tr s) (e : E) :
    Traces step s₀ (tr ++ [(e, (step s e).1)]) (step s e).2

def EachStep (step : S → E → Option S) (P : S → E → S → Prop) (s₀ : S) (es : List E) : Prop :=
  ∀ es₁ e es₂ s s', es = es₁ ++ e :: es₂ → Runs step s₀ es₁ s → step s e = some s' → P s e s'

def runAll (step : S → E → Option S) : S → List E → Option S
  | s, [] => some s
  | s, e :: es =>
    match step s e with
    | some s' => runAll step s' es
    | none => none

def checkAll (step : S → E → Option S) (P : S → E → Bool) : S → List E → Bool
  | _, [] => true
  | s, e :: es =>
    P s e && match step s e with
      | some s' => checkAll step P s' es
      | none => true

variable {S E : Type} {step : S → E → Option S} {s₀ s s' : S} {es es' : List E} {e : E}

theorem Runs.append_runAll (h : Runs step s₀ es s) (hr : runAll step s es' = some s') :
    Runs step s₀ (es ++ es') s' := by
  induction es' generalizing s es with
  | nil =>
    cases hr
    rwa [List.append_nil]
  | cons e es' ih =>
    rw [runAll] at hr
    split at hr
    · next hs =>
      have h' := ih (h.snoc hs) hr
      rwa [List.append_assoc, List.singleton_append] at h'
    · cases hr

theorem Runs.append {s'' : S} (h : Runs step s₀ es s) (h' : Runs step s es' s'') :
    Runs step s₀ (es ++ es') s'' := by
  induction h' with
  | start => rwa [List.append_nil]
  | snoc _ hs ih =>
    rw [← List.append_assoc]
    exact ih.snoc hs

theorem runs_of_runAll (h : runAll step s₀ es = some s) : Runs step s₀ es s :=
  Runs.start.append_runAll h

/-- What one step preserves, a run preserves; the invariant may speak of the events so far. -/
theorem Runs.invariant (I : List E → S → Prop) (h₀ : I [] s₀)
    (hstep : ∀ es s e s', I es s → step s e = some s' → I (es ++ [e]) s')
    (h : Runs step s₀ es s) : I es s := by
  induction h with
  | start => exact h₀
  | snoc _ hs ih => exact hstep _ _ _ _ ih hs

theorem runAll_append (es es' : List E) :
    runAll step s₀ (es ++ es') = (runAll step s₀ es).bind fun s => runAll step s es' := by
  induction es generalizing s₀ with
  | nil => rfl
  | cons e es ih =>
    simp only [List.cons_append, runAll]
    split
    · exact ih
    · rfl

theorem Runs.runAll_eq (h : Runs step s₀ es s) : runAll step s₀ es = some s := by
  induction h with
  | start => rfl
  | snoc _ hs ih =>
    rw [runAll_append, ih, Option.bind_some, runAll, hs]
    rfl

theorem Runs.after (h : Runs step s₀ (es ++ e :: es') s') (hr : Runs step s₀ es s)
    (hs : step s e = some t) : Runs step t es' s' := by
  have ha := h.runAll_eq
  rw [runAll_append, hr.runAll_eq, Option.bind_some, runAll, hs] at ha
  exact runs_of_runAll ha

theorem checkAll_append {P : S → E → Bool} (h : checkAll step P s₀ (es ++ e :: es') = true)
    (hr : runAll step s₀ es = some s) : P s e = true := by
  induction es generalizing s₀ with
  | nil =>
    cases hr
    exact (Bool.and_eq_true_iff.1 h).1
  | cons e' es ih =>
    rw [List.cons_append, checkAll, Bool.and_eq_true] at h
    rw [runAll] at hr
    split at hr
    · next s' hs =>
      rw [hs] at h
      exact ih h.2 hr
    · cases hr

theorem eachStep_of_checkAll {P : S → E → Bool} (h : checkAll step P s₀ es = true) :
    EachStep step (fun s e _ => P s e = true) s₀ es := by
  intro es₁ e es₂ s s' he hr _
  subst he
  exact checkAll_append h hr.runAll_eq

variable {P Q : S → E → S → Prop}

theorem EachStep.imp (h : EachStep step P s₀ es) (hPQ : ∀ s e s', P s e s' → Q s e s') :
    EachStep step Q s₀ es :=
  fun es₁ e es₂ s s' he hr hs => hPQ s e s' (h es₁ e es₂ s s' he hr hs)

theorem EachStep.init (h : EachStep step P s₀ (es ++ es')) : EachStep step P s₀ es := by
  intro es₁ e es₂ s s' he hr hs
  refine h es₁ e (es₂ ++ es') s s' ?_ hr hs
  rw [he, List.append_assoc, List.cons_append]

theorem EachStep.last (h : EachStep step P s₀ (es ++ [e])) (hr : Runs step s₀ es s)
    (hs : step s e = some s') : P s e s' :=
  h es e [] s s' rfl hr hs

theorem EachStep.rest (h : EachStep step P s₀ (es ++ es')) (hr : Runs step s₀ es s) :
    EachStep step P s es' := by
  intro es₁ e es₂ t t' he ht hs
  subst he
  exact h (es ++ es₁) e es₂ t t' (List.append_assoc ..).symm (hr.append ht) hs

/-- As `Runs.invariant`, for runs whose steps all meet a side condition. -/
theorem Runs.invariant_of (I : List E → S → Prop) (h₀ : I [] s₀)
    (hstep : ∀ es s e s', I es s → step s e = some s' → P s e s' → I (es ++ [e]) s')
    (h : Runs step s₀ es s) (hP : EachStep step P s₀ es) : I es s := by
  induction h with
  | start => exact h₀
  | snoc hr hs ih => exact hstep _ _ _ _ (ih hP.init) hs (hP.last hr hs)

theorem EachStep.of_invariant (I : List E → S → Prop) (h₀ : I [] s₀)
    (hstep : ∀ es s e s', I es s → step s e = some s' → P s e s' → I (es ++ [e]) s')
    (hQ : ∀ es s e s', I es s → step s e = some s' → P s e s' → Q s e s')
    (hP : EachStep step P s₀ es) : EachStep step Q s₀ es := by
  intro es₁ e es₂ s s' he hr hs
  subst he
  have hI := hr.invariant_of I h₀ hstep hP.init
  exact hQ _ _ _ _ hI hs (hP es₁ e es₂ s s' rfl hr hs)

theorem Traces.invariant {step : S → E → O × S} (I : List (E × O) → S → Prop) (h₀ : I [] s₀)
    (hstep : ∀ tr s e, I tr s → I (tr ++ [(e, (step s e).1)]) (step s e).2)
    (h : Traces step s₀ tr s) : I tr s := by
  induction h with
  | start => exact h₀
  | snoc _ e ih => exact hstep _ _ e ih

theorem Traces.split {step : S → E → O × S} (h : Traces step s₀ (tr₁ ++ tr₂) s) :
    ∃ s₁, Traces step s₀ tr₁ s₁ ∧ Traces step s₁ tr₂ s := by
  generalize htr : tr₁ ++ tr₂ = tr at h
  induction h generalizing tr₂ with
  | start =>
    obtain ⟨rfl, rfl⟩ := List.append_eq_nil_iff.1 htr
    exact ⟨s₀, .start, .start⟩
  | snoc h e ih =>
    rcases List.eq_nil_or_concat tr₂ with rfl | ⟨tr₂, x, rfl⟩
    · rw [List.append_nil] at htr
      subst htr
      exact ⟨_, h.snoc e, .start⟩
    · rw [List.concat_eq_append, ← List.append_assoc] at htr
      obtain ⟨htr, hx⟩ := List.append_inj' htr rfl
      obtain ⟨s₁, h₁, h₂⟩ := ih htr
      cases hx
      rw [List.concat_eq_append]
      exact ⟨s₁, h₁, h₂.snoc e⟩

theorem Traces.uncons {step : S → E → O × S} (h : Traces step s₀ (x :: tr) s) :
    x.2 = (step s₀ x.1).1 ∧ Traces step (step s₀ x.1).2 tr s := by
  rw [← List.singleton_append] at h
  obtain ⟨s₁, h₁, h₂⟩ := h.split
  generalize htr : [x] = tr₁ at h₁
  cases h₁ with
  | start => cases htr
  | @snoc tr₀ t h₁ e =>
    obtain ⟨hnil, hx⟩ := List.append_eq_singleton_iff.1 htr.symm |>.resolve_right (by simp)
    cases hx
    generalize tr₀ = tr₁ at h₁ hnil
    cases h₁ with
    | start => exact ⟨rfl, h₂⟩
    | snoc => simp at hnil

end Lib
