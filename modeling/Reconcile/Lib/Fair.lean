import Mathlib.Algebra.Order.Ring.Nat
import Reconcile.Lib.Transition

namespace Lib
set_option autoImplicit true

/-- An infinite run: at every instant one event is taken, or nothing happens. -/
structure InfiniteRun (step : S → E → Option S) (s₀ : S) where
  state : Nat → S
  event : Nat → Option E
  init : state 0 = s₀
  taken : ∀ n e, event n = some e → step (state n) e = some (state (n + 1))
  idle : ∀ n, event n = none → state (n + 1) = state n

namespace InfiniteRun

variable {S E : Type} {step : S → E → Option S} {s₀ : S} {run : InfiniteRun step s₀}

def Fair (run : InfiniteRun step s₀) (owes : S → E → Prop) : Prop :=
  ∀ n e, owes (run.state n) e → ∃ m, n ≤ m ∧ run.event m = some e

def LeadsTo (run : InfiniteRun step s₀) (P Q : S → Prop) : Prop :=
  ∀ n, P (run.state n) → ∃ m, n ≤ m ∧ Q (run.state m)

theorem runs (run : InfiniteRun step s₀) (n : Nat) : ∃ es, Runs step s₀ es (run.state n) := by
  induction n with
  | zero =>
    rw [run.init]
    exact ⟨[], .start⟩
  | succ n ih =>
    obtain ⟨es, h⟩ := ih
    cases he : run.event n with
    | none =>
      rw [run.idle n he]
      exact ⟨es, h⟩
    | some e => exact ⟨es ++ [e], h.snoc (run.taken n e he)⟩

theorem LeadsTo.trans (h : run.LeadsTo P Q) (h' : run.LeadsTo Q R) : run.LeadsTo P R := by
  intro n hn
  obtain ⟨m, hm, hQ⟩ := h n hn
  obtain ⟨l, hl, hR⟩ := h' m hQ
  exact ⟨l, hm.trans hl, hR⟩

theorem LeadsTo.or (h : run.LeadsTo P R) (h' : run.LeadsTo Q R) :
    run.LeadsTo (fun s => P s ∨ Q s) R :=
  fun n hn => hn.elim (h n) (h' n)

theorem LeadsTo.exists {P : ι → S → Prop} (h : ∀ i, run.LeadsTo (P i) Q) :
    run.LeadsTo (fun s => ∃ i, P i s) Q := by
  rintro n ⟨i, hi⟩
  exact h i n hi

/-- The progress rule: an event that is owed while `P` holds makes `Q` true, and every other event
keeps `P` or makes `Q` true. `I` holds all along. -/
theorem Fair.leadsTo (hfair : run.Fair owes) {I P Q : S → Prop} (hI : ∀ n, I (run.state n))
    (e₀ : E) (howes : ∀ s, I s → P s → owes s e₀)
    (hdo : ∀ s s', I s → P s → step s e₀ = some s' → Q s')
    (hkeep : ∀ s e s', I s → P s → e ≠ e₀ → step s e = some s' → P s' ∨ Q s') :
    run.LeadsTo P Q := by
  intro n hn
  obtain ⟨m, hm, he⟩ := hfair n e₀ (howes _ (hI n) hn)
  obtain ⟨d, rfl⟩ := Nat.exists_eq_add_of_le hm
  clear hm
  -- by the distance to the instant at which the owed event is taken
  induction d generalizing n with
  | zero => exact ⟨n + 1, Nat.le_succ n, hdo _ _ (hI n) hn (run.taken n e₀ he)⟩
  | succ d ih =>
    have hstep : P (run.state (n + 1)) ∨ Q (run.state (n + 1)) := by
      cases hev : run.event n with
      | none =>
        rw [run.idle n hev]
        exact .inl hn
      | some e =>
        by_cases h₀ : e = e₀
        · subst h₀
          exact .inr (hdo _ _ (hI n) hn (run.taken n e hev))
        · exact hkeep _ _ _ (hI n) hn h₀ (run.taken n e hev)
    rcases hstep with hP | hQ
    · obtain ⟨l, hl, hQ⟩ := ih (n + 1) hP (by rwa [Nat.add_assoc, Nat.add_comm 1])
      exact ⟨l, (Nat.le_succ n).trans hl, hQ⟩
    · exact ⟨n + 1, Nat.le_succ n, hQ⟩

theorem runAll_take {es : List E} (h : (runAll step s₀ es).isSome = true) (he : es[n]? = some e) :
    ∃ s s', runAll step s₀ (es.take n) = some s ∧ runAll step s₀ (es.take (n + 1)) = some s' ∧
      step s e = some s' := by
  have hsplit : runAll step s₀ (es.take (n + 1) ++ es.drop (n + 1)) = _ := runAll_append ..
  rw [List.take_append_drop] at hsplit
  cases hs' : runAll step s₀ (es.take (n + 1)) with
  | none =>
    rw [hsplit, hs'] at h
    cases h
  | some s' =>
    have hlast := hs'
    rw [List.take_add_one, he, Option.toList_some, runAll_append] at hlast
    obtain ⟨s, hs, hstep⟩ := Option.bind_eq_some_iff.1 hlast
    refine ⟨s, s', hs, rfl, ?_⟩
    rw [runAll] at hstep
    split at hstep
    · next hs => exact hs.trans hstep
    · cases hstep

def ofList (step : S → E → Option S) (s₀ : S) (es : List E)
    (h : (runAll step s₀ es).isSome = true) : InfiniteRun step s₀ where
  state n := (runAll step s₀ (es.take n)).getD s₀
  event n := es[n]?
  init := rfl
  taken := by
    intro n e he
    obtain ⟨s, s', hs, hs', hstep⟩ := runAll_take h he
    rw [hs, hs']
    exact hstep
  idle := by
    intro n he
    have hlen := List.getElem?_eq_none_iff.1 he
    rw [List.take_of_length_le hlen, List.take_of_length_le (hlen.trans (Nat.le_succ n))]

/-- A finite run is fair if it takes what it owes and owes nothing at the end. -/
theorem fair_ofList {owes : S → List E} {es : List E}
    (h : (runAll step s₀ es).isSome = true)
    (howes : ∀ n ≤ es.length, ∀ e ∈ owes ((runAll step s₀ (es.take n)).getD s₀), e ∈ es.drop n) :
    (ofList step s₀ es h).Fair fun s e => e ∈ owes s := by
  intro n e he
  by_cases hn : n ≤ es.length
  · obtain ⟨i, hi, hget⟩ := List.mem_iff_getElem.1 (howes n hn e he)
    refine ⟨n + i, Nat.le_add_right n i, ?_⟩
    change es[n + i]? = some e
    rw [← List.getElem?_drop, List.getElem?_eq_getElem hi, hget]
  · have hlen : es.length ≤ n := (Nat.lt_of_not_le hn).le
    change e ∈ owes ((runAll step s₀ (es.take n)).getD s₀) at he
    have hnil := howes es.length le_rfl e (by
      rwa [List.take_of_length_le le_rfl, ← List.take_of_length_le hlen])
    rw [List.drop_length] at hnil
    cases hnil

end InfiniteRun
end Lib
