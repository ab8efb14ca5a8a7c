import Reconcile.Lib.HashMap

namespace Lib
set_option autoImplicit true

/-- Values filed in sets under a key; an emptied set is not kept. -/
abbrev Buckets (I E : Type) : Type := HashMap I (HashSet E)

namespace Buckets

variable {I E : Type} [DecidableEq I] [DecidableEq E]

def holds (b : Buckets I E) (i : I) (e : E) : Bool := (b.lookup i).any (·.contains e)

def add (b : Buckets I E) (i : I) (e : E) : Buckets I E :=
  b.insert i (((b.lookup i).getD ∅).insert e ())

def drop (b : Buckets I E) (i : I) (e : E) : Buckets I E :=
  match b.lookup i with
  | some bucket =>
    if (bucket.erase e).entries.isEmpty then b.erase i else b.insert i (bucket.erase e)
  | none => b

theorem holds_add (b : Buckets I E) (i j : I) (e x : E) :
    (b.add i e).holds j x = (b.holds j x || decide (j = i ∧ x = e)) := by
  rw [holds, add, HashMap.lookup_insert_eq, holds]
  by_cases hj : j = i
  · subst hj
    rw [if_pos rfl, Option.any_some, HashMap.contains_insert]
    cases b.lookup j with
    | none => simp [HashMap.contains]
    | some bucket => simp [Bool.or_comm]
  · simp [hj]

theorem holds_drop (b : Buckets I E) (i j : I) (e x : E) :
    (b.drop i e).holds j x = (b.holds j x && !decide (j = i ∧ x = e)) := by
  unfold drop
  split
  · next bucket hb =>
    -- either way the bucket at `i` is left with its values other than `e`
    have hleft := HashMap.contains_erase bucket e x
    split
    · next he =>
      have hempty : bucket.erase e = ∅ := AList.ext (List.isEmpty_iff.1 he)
      rw [hempty] at hleft
      rw [holds, HashMap.lookup_erase_eq, holds]
      by_cases hj : j = i
      · subst hj
        simpa [hb, HashMap.contains] using hleft
      · simp [hj]
    · rw [holds, HashMap.lookup_insert_eq, holds]
      by_cases hj : j = i
      · subst hj
        simpa [hb] using hleft
      · simp [hj]
  · next hn =>
    by_cases hj : j = i
    · subst hj
      simp [holds, hn]
    · simp [hj]

def Filled (b : Buckets I E) : Prop := ∀ i bucket, b.lookup i = some bucket → bucket ≠ ∅

omit [DecidableEq E] in
theorem filled_empty : Filled (∅ : Buckets I E) := by
  intro i bucket hb
  cases hb

theorem Filled.add {b : Buckets I E} (h : b.Filled) (i : I) (e : E) : (b.add i e).Filled := by
  intro j bucket hb
  rw [Buckets.add, HashMap.lookup_insert_eq] at hb
  split at hb
  · cases hb
    intro hempty
    have hc := HashMap.contains_insert ((b.lookup i).getD ∅) e e ()
    rw [hempty, decide_eq_true rfl, Bool.true_or] at hc
    cases hc
  · exact h j bucket hb

theorem Filled.drop {b : Buckets I E} (h : b.Filled) (i : I) (e : E) : (b.drop i e).Filled := by
  unfold Buckets.drop
  split
  · next old _ =>
    intro j bucket hb
    split at hb
    · rw [HashMap.lookup_erase_eq] at hb
      split at hb
      · cases hb
      · exact h j bucket hb
    · next hleft =>
      rw [HashMap.lookup_insert_eq] at hb
      split at hb
      · cases hb
        intro hempty
        rw [hempty] at hleft
        exact hleft rfl
      · exact h j bucket hb
  · exact h

end Buckets

/-- On a list ordered by `r`, a predicate closed under `r` holds exactly on a first part. -/
theorem mem_takeWhile_of_pairwise {α : Type} {p : α → Bool} {r : α → α → Prop} {l : List α}
    (hl : l.Pairwise r) (hp : ∀ a b, r a b → p b = true → p a = true) (x : α) :
    x ∈ l.takeWhile p ↔ x ∈ l ∧ p x = true := by
  induction l with
  | nil => simp
  | cons a l ih =>
    obtain ⟨ha, hl⟩ := List.pairwise_cons.1 hl
    rw [List.takeWhile_cons]
    split
    · next hpa =>
      simp only [List.mem_cons, ih hl, or_and_right]
      refine or_congr_left ?_
      exact ⟨fun hx => ⟨hx, hx ▸ hpa⟩, fun hx => hx.1⟩
    · next hpa =>
      refine iff_of_false List.not_mem_nil ?_
      rintro ⟨hx, hpx⟩
      rcases List.mem_cons.1 hx with rfl | hx
      · exact hpa hpx
      · exact hpa (hp a x (ha x hx) hpx)

end Lib
