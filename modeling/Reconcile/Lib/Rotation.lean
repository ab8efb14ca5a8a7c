import Mathlib.Data.Finset.Card
import Mathlib.Data.Finset.Filter
import Mathlib.Order.Defs.LinearOrder

namespace Lib.Rotation
set_option autoImplicit true

variable {P K : Type} [LinearOrder K]

def After (cursor : Option K) (k : K) : Prop := ∀ last ∈ cursor, last < k

instance instDecidableAfter (cursor : Option K) : DecidablePred (After cursor) := fun k =>
  inferInstanceAs (Decidable (∀ last ∈ cursor, last < k))

/-- The key that comes next: the least one past the cursor, or the least of all when there is
none. -/
inductive Next (keys : Finset K) (cursor : Option K) (k : K) : Prop where
  | past (hk : k ∈ keys) (hafter : After cursor k) (hleast : ∀ y ∈ keys, After cursor y → k ≤ y)
  | wrap (hk : k ∈ keys) (hdone : ∀ y ∈ keys, ¬After cursor y) (hleast : ∀ y ∈ keys, k ≤ y)

theorem after_some {c k : K} : After (some c) k ↔ c < k := by
  simp only [After, Option.mem_some_iff, forall_eq']

theorem After.lt {cursor : Option K} {x y : K} (hx : After cursor x) (hy : ¬After cursor y) :
    y < x := by
  simp only [After, not_forall] at hy
  obtain ⟨last, hlast, hle⟩ := hy
  exact (not_lt.1 hle).trans_lt (hx last hlast)

theorem After.mono {cursor : Option K} {x y : K} (hx : After cursor x) (hxy : x ≤ y) :
    After cursor y := fun last hlast => (hx last hlast).trans_le hxy

def between (keys : Finset K) (cursor : Option K) (k : K) : Finset K :=
  keys.filter fun y => if After cursor k then After cursor y ∧ y ≤ k else After cursor y ∨ y ≤ k

theorem card_between_le (keys : Finset K) (cursor : Option K) (k : K) :
    (between keys cursor k).card ≤ keys.card := Finset.card_filter_le _ _

theorem Next.card_lt {keys : Finset K} {cursor : Option K} {x k : K} (hx : Next keys cursor x)
    (hk : k ∈ keys) (hne : x ≠ k) :
    (between keys (some x) k).card < (between keys cursor k).card := by
  -- the key just served was on the way and is not any more
  suffices h : x ∈ between keys cursor k ∧ x ∉ between keys (some x) k ∧
      between keys (some x) k ⊆ between keys cursor k from
    Finset.card_lt_card ((Finset.ssubset_iff_of_subset h.2.2).2 ⟨x, h.1, h.2.1⟩)
  simp only [between, Finset.mem_filter, after_some, Finset.subset_iff]
  cases hx with
  | past hmem hafter hleast =>
    by_cases hpast : After cursor k
    · have hlt : x < k := lt_of_le_of_ne (hleast k hk hpast) hne
      simp only [if_pos hpast, if_pos hlt]
      refine ⟨⟨hmem, hafter, hlt.le⟩, fun h => lt_irrefl x h.2.1, ?_⟩
      rintro y ⟨hy, hxy, hyk⟩
      exact ⟨hy, hafter.mono hxy.le, hyk⟩
    · have hlt : k < x := hafter.lt hpast
      simp only [if_neg hpast, if_neg hlt.not_gt]
      refine ⟨⟨hmem, .inl hafter⟩, fun h => h.2.elim (lt_irrefl x) hlt.not_ge, ?_⟩
      rintro y ⟨hy, hxy⟩
      exact ⟨hy, hxy.imp_left fun hlt => hafter.mono hlt.le⟩
  | wrap hmem hdone hleast =>
    have hlt : x < k := lt_of_le_of_ne (hleast k hk) hne
    simp only [if_neg (hdone k hk), if_pos hlt]
    refine ⟨⟨hmem, .inr hlt.le⟩, fun h => lt_irrefl x h.2.1, ?_⟩
    rintro y ⟨hy, _, hyk⟩
    exact ⟨hy, .inr hyk⟩

/-- One tick at place `i`: at least the client in turn is served, each client served gets its next
key and its cursor moves there, and every other cursor stays. -/
structure Tick (clients : List P) (keys : Finset K) (i : Nat) (cursor : P → Option K)
    (served : List (P × K)) (cursor' : P → Option K) : Prop where
  turn : ∀ p, clients[i % clients.length]? = some p → ∃ k, (p, k) ∈ served
  next : ∀ p k, (p, k) ∈ served → Next keys (cursor p) k
  moved : ∀ p k, (p, k) ∈ served → cursor' p = some k
  kept : ∀ p, (∀ k, (p, k) ∉ served) → cursor' p = cursor p

inductive Ticks (clients : List P) (keys : Finset K) :
    Nat → (P → Option K) → List (List (P × K)) → Prop where
  | nil : Ticks clients keys i cursor []
  | cons : Tick clients keys i cursor served cursor' → Ticks clients keys (i + 1) cursor' log →
    Ticks clients keys i cursor (served :: log)

theorem Tick.progress {clients : List P} {keys : Finset K} {cursor cursor' : P → Option K}
    {served : List (P × K)} (h : Tick clients keys i cursor served cursor') (hk : k ∈ keys)
    (hns : (p, k) ∉ served) :
    (between keys (cursor' p) k).card ≤ (between keys (cursor p) k).card ∧
      (clients[i % clients.length]? = some p →
        (between keys (cursor' p) k).card < (between keys (cursor p) k).card) := by
  by_cases hp : ∃ x, (p, x) ∈ served
  · obtain ⟨x, hx⟩ := hp
    have hne : x ≠ k := by
      rintro rfl
      exact hns hx
    have hlt := (h.next p x hx).card_lt hk hne
    rw [h.moved p x hx]
    exact ⟨hlt.le, fun _ => hlt⟩
  · have hkept := h.kept p (not_exists.1 hp)
    rw [hkept]
    exact ⟨le_rfl, fun hturn => absurd (h.turn p hturn) hp⟩

theorem card_between_pos {keys : Finset K} (cursor : Option K) (hk : k ∈ keys) :
    0 < (between keys cursor k).card := by
  apply Finset.card_pos.2
  refine ⟨k, Finset.mem_filter.2 ⟨hk, ?_⟩⟩
  split
  · next hpast => exact ⟨hpast, le_rfl⟩
  · exact .inr le_rfl

/-- With a turn left for every key on the way, the key is served: `w` ticks go by until the
client's next turn, and a whole round between one turn and the next. -/
theorem Ticks.served {clients : List P} {keys : Finset K} {cursor : P → Option K}
    {log : List (List (P × K))} (h : Ticks clients keys i cursor log) (hk : k ∈ keys)
    (hp : clients[(i + w) % clients.length]? = some p)
    (hlog : (between keys (cursor p) k).card * clients.length + w <
      log.length + clients.length) : ∃ served ∈ log, (p, k) ∈ served := by
  induction h generalizing w with
  | @nil i cursor =>
    have hone := Nat.mul_le_mul_right clients.length (card_between_pos (cursor p) hk)
    rw [List.length_nil] at hlog
    omega
  | @cons i cursor served cursor' log ht _ ih =>
    by_cases hs : (p, k) ∈ served
    · exact ⟨served, List.mem_cons_self, hs⟩
    obtain ⟨hle, hturn⟩ := ht.progress hk hs
    rw [List.length_cons] at hlog
    suffices h : ∃ served ∈ log, (p, k) ∈ served by
      obtain ⟨served', hmem, hs'⟩ := h
      exact ⟨served', List.mem_cons_of_mem _ hmem, hs'⟩
    cases w with
    | zero =>
      have hpos : 0 < clients.length := List.length_pos_of_mem (List.mem_of_getElem? hp)
      have hround := Nat.mul_le_mul_right clients.length (Nat.succ_le_of_lt (hturn hp))
      rw [Nat.succ_mul] at hround
      refine ih (w := clients.length - 1) ?_ (by omega)
      rwa [Nat.add_assoc, Nat.add_sub_cancel' hpos, Nat.add_mod_right]
    | succ w =>
      have hround := Nat.mul_le_mul_right clients.length hle
      refine ih (w := w) ?_ (by omega)
      rwa [Nat.add_assoc, Nat.add_comm 1]

theorem Ticks.cover {clients : List P} {keys : Finset K} {cursor : P → Option K}
    {log : List (List (P × K))} (h : Ticks clients keys i cursor log)
    (hlog : keys.card * clients.length ≤ log.length) (hp : p ∈ clients) (hk : k ∈ keys) :
    ∃ served ∈ log, (p, k) ∈ served := by
  obtain ⟨j, hj, rfl⟩ := List.getElem_of_mem hp
  have hcard := Nat.mul_le_mul_right clients.length (card_between_le keys (cursor clients[j]) k)
  obtain ⟨w, hw, hturn⟩ : ∃ w < clients.length, (i + w) % clients.length = j := by
    have hi := Nat.mod_lt i (Nat.zero_lt_of_lt hj)
    have hdiv := Nat.div_add_mod i clients.length
    rcases le_or_gt (i % clients.length) j with hle | hlt
    · have he : i + (j - i % clients.length) = j + clients.length * (i / clients.length) := by omega
      refine ⟨j - i % clients.length, by omega, ?_⟩
      rw [he, Nat.add_mul_mod_self_left, Nat.mod_eq_of_lt hj]
    · have he : i + (j + clients.length - i % clients.length) =
          j + clients.length * (i / clients.length + 1) := by
        rw [Nat.mul_succ]
        omega
      refine ⟨j + clients.length - i % clients.length, by omega, ?_⟩
      rw [he, Nat.add_mul_mod_self_left, Nat.mod_eq_of_lt hj]
  refine h.served hk (w := w) ?_ (by omega)
  rw [hturn, List.getElem?_eq_getElem hj]

end Lib.Rotation
