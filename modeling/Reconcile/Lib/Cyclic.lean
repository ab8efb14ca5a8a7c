import Mathlib.Algebra.Order.Ring.Nat
import Mathlib.Data.List.Rotate

namespace Lib.Cyclic
set_option autoImplicit true

variable {K : Type} [LinearOrder K] {keys : List K} {a b k u : K}

/-- From `a` on and before `b`, around the end; the whole cycle when `a` and `b` are one key. -/
def Span (a b k : K) : Prop := if a < b then a ≤ k ∧ k < b else a ≤ k ∨ k < b

instance instDecidableSpan (a b k : K) : Decidable (Span a b k) :=
  inferInstanceAs (Decidable (if a < b then a ≤ k ∧ k < b else a ≤ k ∨ k < b))

def around (keys : List K) (i : Nat) : List K := keys.drop i ++ keys.take i

/-- A walk from `a` comes to `x` before `y`. -/
def Precedes (a x y : K) : Prop := if a ≤ x then x < y ∨ y < a else x < y ∧ y < a

inductive Resumes (keys : List K) (u b : K) : Prop where
  | past (hle : u ≤ b) (hleast : ∀ k ∈ keys, u ≤ k → b ≤ k)
  | wrap (hbelow : ∀ k ∈ keys, k < u) (hleast : ∀ k ∈ keys, b ≤ k)

theorem Precedes.ne (h : Precedes a x y) : x ≠ y := by
  rintro rfl
  rw [Precedes] at h
  split at h
  · next hle => exact h.elim (lt_irrefl x) hle.not_gt
  · exact lt_irrefl x h.1

theorem Precedes.not_span (h : Precedes a u k) (hne : a ≠ u) : ¬Span a u k := by
  rw [Precedes] at h
  rw [Span]
  split at h
  · next hle =>
    rw [if_pos (lt_of_le_of_ne hle hne)]
    rintro ⟨hak, hku⟩
    exact h.elim hku.not_gt hak.not_gt
  · next hlt =>
    rw [if_neg fun hau => hlt hau.le]
    exact not_or.2 ⟨h.2.not_ge, h.1.not_gt⟩

theorem not_span_self (hne : a ≠ u) : ¬Span a u u := by
  rw [Span]
  split
  · exact fun h => lt_irrefl u h.2
  · next hlt => exact not_or.2 ⟨fun hle => hlt (lt_of_le_of_ne hle hne), lt_irrefl u⟩

theorem pairwise_around (hkeys : keys.Pairwise (· < ·)) (ha : keys[i]? = some a) :
    (around keys i).Pairwise (Precedes a) := by
  obtain ⟨hi, rfl⟩ := List.getElem?_eq_some_iff.1 ha
  have hsplit : (keys.take i ++ keys.drop i).Pairwise (· < ·) := by rwa [List.take_append_drop]
  obtain ⟨htake, hdrop, hlt⟩ := List.pairwise_append.1 hsplit
  have hhead : keys[i] ∈ keys.drop i := by
    rw [List.drop_eq_getElem_cons hi]
    exact List.mem_cons_self
  have hbelow (x : K) (hx : x ∈ keys.take i) : x < keys[i] := hlt x hx _ hhead
  have habove (x : K) (hx : x ∈ keys.drop i) : keys[i] ≤ x := by
    rw [List.drop_eq_getElem_cons hi] at hx hdrop
    rcases List.mem_cons.1 hx with rfl | hx
    · exact le_rfl
    · exact ((List.pairwise_cons.1 hdrop).1 x hx).le
  refine List.pairwise_append.2 ⟨?_, ?_, fun x hx y hy => ?_⟩
  · refine hdrop.imp_of_mem fun {x y} hx _ hxy => ?_
    rw [Precedes, if_pos (habove x hx)]
    exact .inl hxy
  · refine htake.imp_of_mem fun {x y} hx hy hxy => ?_
    rw [Precedes, if_neg (hbelow x hx).not_ge]
    exact ⟨hxy, hbelow y hy⟩
  · rw [Precedes, if_pos (habove x hx)]
    exact .inr (hbelow y hy)

omit [LinearOrder K] in
theorem mem_around : k ∈ around keys i ↔ k ∈ keys := by
  rw [around, List.mem_append, or_comm, ← List.mem_append, List.take_append_drop]

omit [LinearOrder K] in
theorem around_eq_rotate (keys : List K) (hi : i ≤ keys.length) :
    around keys i = keys.rotate i := (List.rotate_eq_drop_append_take hi).symm

omit [LinearOrder K] in
theorem length_around (keys : List K) (i : Nat) : (around keys i).length = keys.length := by
  rw [around, List.length_append, Nat.add_comm, ← List.length_append, List.take_append_drop]

omit [LinearOrder K] in
theorem head?_around (ha : keys[i]? = some a) : (around keys i).head? = some a := by
  obtain ⟨hi, -⟩ := List.getElem?_eq_some_iff.1 ha
  rw [around_eq_rotate keys hi.le, List.head?_rotate hi, ha]

/-- A walk that stopped before `u` has seen all keys of the span up to it. -/
theorem mem_seen (hkeys : keys.Pairwise (· < ·)) (ha : keys[i]? = some a)
    (hwalk : around keys i = seen ++ u :: rest) (hseen : seen ≠ []) (hk : k ∈ keys)
    (hspan : Span a u k) : k ∈ seen := by
  have hordered := pairwise_around hkeys ha
  have hhead := head?_around ha
  have hmem := mem_around (i := i).2 hk
  rw [hwalk] at hordered hhead hmem
  obtain ⟨-, hrest, hbefore⟩ := List.pairwise_append.1 hordered
  have haseen : a ∈ seen := by
    rw [List.head?_append_of_ne_nil _ hseen] at hhead
    exact List.mem_of_head? hhead
  have hne : a ≠ u := (hbefore a haseen u List.mem_cons_self).ne
  rcases List.mem_append.1 hmem with hs | hk
  · exact hs
  rcases List.mem_cons.1 hk with rfl | hk
  · exact absurd hspan (not_span_self hne)
  · exact absurd hspan (((List.pairwise_cons.1 hrest).1 k hk).not_span hne)

theorem Span.of_resumes (hspan : Span a b k) (h : Resumes keys u b) (hk : k ∈ keys) :
    Span a u k := by
  rw [Span] at hspan ⊢
  cases h with
  | past hle hleast =>
    have hgap (huk : u ≤ k) : b ≤ k := hleast k hk huk
    by_cases hau : a < u
    · rw [if_pos hau]
      rw [if_pos (hau.trans_le hle)] at hspan
      exact ⟨hspan.1, lt_of_not_ge fun huk => (hgap huk).not_gt hspan.2⟩
    · rw [if_neg hau]
      by_contra hno
      obtain ⟨hka, huk⟩ := not_or.1 hno
      have hbk := hgap (le_of_not_gt huk)
      rw [if_neg fun hab => hka (hab.le.trans hbk)] at hspan
      exact hspan.elim hka hbk.not_gt
  | wrap hbelow hleast =>
    have hku := hbelow k hk
    have hbk := hleast k hk
    by_cases hau : a < u
    · rw [if_pos hau]
      refine ⟨?_, hku⟩
      by_contra hka
      rw [if_neg fun hab => hka (hab.le.trans hbk)] at hspan
      exact hspan.elim hka hbk.not_gt
    · rw [if_neg hau]
      exact .inr hku

theorem around_next (hkeys : keys.Pairwise (· < ·)) (hi : i < keys.length)
    (hwalk : around keys i = seen ++ u :: rest) (hu : keys[j]? = some u) :
    around keys j = u :: rest ++ seen := by
  obtain ⟨hj, -⟩ := List.getElem?_eq_some_iff.1 hu
  have hnodup : keys.Nodup := hkeys.imp fun hlt => hlt.ne
  have hmove : keys.rotate (i + seen.length) = u :: rest ++ seen := by
    rw [← List.rotate_rotate, ← around_eq_rotate keys hi.le, hwalk, List.rotate_append_length_eq]
  have hlen : (i + seen.length) % keys.length < keys.length := Nat.mod_lt _ (by omega)
  have hplace : keys[(i + seen.length) % keys.length]? = some u := by
    rw [← List.head?_rotate hlen, List.rotate_mod, hmove]
    rfl
  have he : (i + seen.length) % keys.length = j :=
    (List.getElem?_inj hlen hnodup).1 (hplace.trans hu.symm)
  rw [around_eq_rotate keys hj.le, ← he, List.rotate_mod, hmove]

end Lib.Cyclic
