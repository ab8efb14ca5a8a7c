import Mathlib.Algebra.Order.Ring.Nat
import Mathlib.Data.List.Chain

namespace Lib.Backoff
set_option autoImplicit true

structure Attempt (W : Type) where
  work : W
  since : Nat
  delay : Nat

variable {W : Type} [DecidableEq W]

def nextDelay (least most : Nat) (last : Option (Attempt W)) (work : W) : Nat :=
  match last with
  | none => least
  | some l => if l.work = work then min (2 * l.delay) most else least

/-- The runs of one backoff: the time, the last attempt while it is remembered, and all attempts,
oldest first. An attempt may be forgotten when the retention is over. -/
inductive Backed (least most retention : Nat) :
    Nat → Option (Attempt W) → List (W × Nat) → Prop where
  | start : Backed least most retention 0 none []
  | wait (h : Backed least most retention now last done) (hnow : now ≤ now') :
    Backed least most retention now' last done
  | forget (h : Backed least most retention now (some l) done) (hover : l.since + retention ≤ now) :
    Backed least most retention now none done
  | attempt (h : Backed least most retention now last done)
    (hdue : ∀ l, last = some l → l.work = work → l.since + l.delay ≤ now) :
    Backed least most retention now (some ⟨work, now, nextDelay least most last work⟩)
      (done ++ [(work, now)])

def Close (retention : Nat) (times : List Nat) : Prop :=
  times.IsChain fun t t' => t' < t + retention

def Paused (least most : Nat) (times : List Nat) : Prop :=
  ∀ i t t', times[i]? = some t → times[i + 1]? = some t' → t + min (2 ^ i * least) most ≤ t'

/-- What is remembered is about the last attempt, and forgotten only after the retention. -/
structure Held (least most retention now : Nat) (last : Option (Attempt W)) (done : List (W × Nat)) :
    Prop where
  newest : ∀ l, last = some l → ∃ pre, done = pre ++ [(l.work, l.since)]
  delay : ∀ l pre times, last = some l → done = pre ++ (times ++ [l.since]).map (Prod.mk l.work) →
    Close retention (times ++ [l.since]) → min (2 ^ times.length * least) most ≤ l.delay
  forgotten : ∀ pre work t, last = none → done = pre ++ [(work, t)] → t + retention ≤ now

variable {least most retention now now' : Nat} {last : Option (Attempt W)} {done : List (W × Nat)}

omit [DecidableEq W] in
theorem Held.resumed (h : Held least most retention now last done)
    (hdone : done = pre ++ (times ++ [t]).map (Prod.mk work)) (hclose : Close retention (times ++ [t]))
    (hnow : now < t + retention) :
    ∃ l, last = some l ∧ l.work = work ∧ l.since = t ∧
      min (2 ^ times.length * least) most ≤ l.delay := by
  have hsnoc : done = (pre ++ times.map (Prod.mk work)) ++ [(work, t)] := by
    rw [hdone, List.map_append, List.append_assoc]
    rfl
  cases last with
  | none => exact absurd (h.forgotten _ _ _ rfl hsnoc) (Nat.not_le.2 hnow)
  | some l =>
    obtain ⟨pre', hl⟩ := h.newest l rfl
    obtain ⟨-, hpair⟩ := List.append_inj' (hsnoc.symm.trans hl) rfl
    obtain ⟨rfl, rfl⟩ := Prod.mk.inj (List.singleton_inj.1 hpair)
    exact ⟨l, rfl, rfl, rfl, h.delay l pre times rfl hdone hclose⟩

omit [DecidableEq W] in
theorem Held.least_le (h : Held least most retention now (some l) done) :
    min least most ≤ l.delay := by
  obtain ⟨pre, hdone⟩ := h.newest l rfl
  have hle := h.delay l pre [] rfl hdone (List.isChain_singleton _)
  rwa [List.length_nil, Nat.pow_zero, Nat.one_mul] at hle

theorem Held.le_nextDelay (h : Held least most retention now last done) (work : W) :
    min least most ≤ nextDelay least most last work := by
  cases last with
  | none => exact min_le_left ..
  | some l =>
    have hle := h.least_le
    rw [nextDelay]
    split
    · omega
    · exact min_le_left ..

theorem Held.attempt (h : Held least most retention now last done) (work : W) :
    Held least most retention now (some ⟨work, now, nextDelay least most last work⟩)
      (done ++ [(work, now)]) where
  newest := by
    rintro _ ⟨⟩
    exact ⟨done, rfl⟩
  delay := by
    rintro _ pre times ⟨⟩ hdone hclose
    rw [List.map_append, List.map_singleton, ← List.append_assoc] at hdone
    have hinit := (List.append_inj' hdone rfl).1
    rcases List.eq_nil_or_concat times with rfl | ⟨times, t, rfl⟩
    · rw [List.length_nil, Nat.pow_zero, Nat.one_mul]
      exact h.le_nextDelay work
    · rw [List.concat_eq_append] at hinit hclose ⊢
      obtain ⟨hinner, -, hgap⟩ := List.isChain_append.1 hclose
      have hnow : now < t + retention := hgap t (by simp) now (by simp)
      obtain ⟨l, rfl, rfl, -, hle⟩ := h.resumed hinit hinner hnow
      have hmul : 2 ^ (times ++ [t]).length * least = 2 * (2 ^ times.length * least) := by
        rw [List.length_append, List.length_singleton, Nat.pow_succ, Nat.mul_comm _ 2, Nat.mul_assoc]
      simp only [nextDelay, ↓reduceIte, hmul]
      omega
  forgotten := by rintro _ _ _ ⟨⟩

theorem Backed.held (h : Backed least most retention now last done) :
    Held least most retention now last done := by
  induction h with
  | start => exact ⟨by rintro _ ⟨⟩, by rintro _ _ _ ⟨⟩, by simp⟩
  | wait _ hnow ih =>
    exact ⟨ih.newest, ih.delay, fun pre work t hl hd => (ih.forgotten pre work t hl hd).trans hnow⟩
  | @forget now l done _ hover ih =>
    refine ⟨by rintro _ ⟨⟩, by rintro _ _ _ ⟨⟩, fun pre work t _ hdone => ?_⟩
    obtain ⟨pre', hl⟩ := ih.newest l rfl
    obtain ⟨-, hpair⟩ := List.append_inj' (hdone.symm.trans hl) rfl
    obtain ⟨-, rfl⟩ := Prod.mk.inj (List.singleton_inj.1 hpair)
    exact hover
  | attempt _ _ ih => exact ih.attempt _

theorem Paused.snoc (h : Paused least most (times ++ [t]))
    (hle : t + min (2 ^ times.length * least) most ≤ t') :
    Paused least most (times ++ [t] ++ [t']) := by
  intro i u u' hu hu'
  have hi : i + 1 < (times ++ [t] ++ [t']).length := (List.getElem?_eq_some_iff.1 hu').1
  simp only [List.length_append, List.length_singleton] at hi
  rw [List.getElem?_append_left (by simp; omega)] at hu
  by_cases hlt : i < times.length
  · rw [List.getElem?_append_left (by simp; omega)] at hu'
    exact h i u u' hu hu'
  · have he : i = times.length := by omega
    subst he
    rw [List.getElem?_concat_length] at hu
    have hu' : some t' = some u' := by
      rw [← hu', List.getElem?_append_right (by simp)]
      simp
    cases hu
    cases hu'
    exact hle

/-- While one piece of work is attempted again and again, the pauses double up to the limit. -/
theorem Backed.paused (h : Backed least most retention now last done)
    (hdone : done = pre ++ times.map (Prod.mk work) ++ post) (hclose : Close retention times) :
    Paused least most times := by
  induction h generalizing pre times work post with
  | start =>
    have hnil : times = [] := by
      have := congrArg List.length hdone
      simp only [List.length_nil, List.length_append, List.length_map] at this
      exact List.length_eq_zero_iff.1 (by omega)
    subst hnil
    rintro _ _ _ ⟨⟩
  | wait _ _ ih => exact ih hdone hclose
  | forget _ _ ih => exact ih hdone hclose
  | @attempt now last done w h hdue ih =>
    rcases List.eq_nil_or_concat post with rfl | ⟨post, x, rfl⟩
    · rw [List.append_nil] at hdone
      rcases List.eq_nil_or_concat times with rfl | ⟨times, t', rfl⟩
      · rintro _ _ _ ⟨⟩
      rw [List.concat_eq_append] at hclose hdone ⊢
      rw [List.map_append, List.map_singleton, ← List.append_assoc] at hdone
      obtain ⟨hinit, hpair⟩ := List.append_inj' hdone rfl
      obtain ⟨rfl, rfl⟩ := Prod.mk.inj (List.singleton_inj.1 hpair)
      obtain ⟨hinner, -, hgap⟩ := List.isChain_append.1 hclose
      have hpaused := ih (hinit.trans (List.append_nil _).symm) hinner
      rcases List.eq_nil_or_concat times with rfl | ⟨times, t, rfl⟩
      · rintro i _ _ - hi
        simp at hi
      rw [List.concat_eq_append] at hinner hinit hgap hpaused ⊢
      have hnow : now < t + retention := hgap t (by simp) now (by simp)
      obtain ⟨l, rfl, rfl, rfl, hle⟩ := h.held.resumed hinit hinner hnow
      exact hpaused.snoc ((Nat.add_le_add_left hle _).trans (hdue l rfl rfl))
    · rw [List.concat_eq_append, ← List.append_assoc] at hdone
      exact ih (List.append_inj' hdone rfl).1 hclose

end Lib.Backoff
