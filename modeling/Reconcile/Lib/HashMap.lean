import Mathlib.Algebra.Order.Ring.Nat
import Mathlib.Data.List.AList

namespace Lib
set_option autoImplicit true

/-- Finite maps; the iteration order is that of the underlying list. -/
abbrev HashMap (K V : Type) : Type := AList (fun _ : K => V)

abbrev HashSet (K : Type) : Type := HashMap K Unit

namespace HashMap

variable {K V W : Type} [DecidableEq K]

theorem lookup_insert_eq (m : HashMap K V) (k k' : K) (v : V) :
    (m.insert k v).lookup k' = if k' = k then some v else m.lookup k' := by
  by_cases h : k' = k
  · subst k'
    rw [if_pos rfl, AList.lookup_insert]
  · rw [if_neg h, AList.lookup_insert_ne h]

theorem lookup_erase_eq (m : HashMap K V) (k k' : K) :
    (m.erase k).lookup k' = if k' = k then none else m.lookup k' := by
  by_cases h : k' = k
  · subst k'
    rw [if_pos rfl, AList.lookup_erase]
  · rw [if_neg h, AList.lookup_erase_ne h]

/-- A loop over a map whose body only rewrites the visited key of an accumulator. -/
theorem lookup_foldl (f : HashMap K W → K → V → HashMap K W) (g : K → V → Option W → Option W)
    (hf : ∀ acc k v k', (f acc k v).lookup k' =
      if k' = k then g k v (acc.lookup k) else acc.lookup k')
    (m : HashMap K V) (acc : HashMap K W) (k : K) :
    (m.foldl f acc).lookup k =
      match m.lookup k with
      | some v => g k v (acc.lookup k)
      | none => acc.lookup k := by
  induction m using AList.insertRec generalizing acc with
  | H0 => rfl
  | IH k₀ v₀ m hk ih =>
    have he : (m.insert k₀ v₀).foldl f acc = m.foldl f (f acc k₀ v₀) := by
      simp only [AList.foldl, AList.entries_insert_of_notMem hk, List.foldl_cons]
    rw [he, ih, hf, lookup_insert_eq]
    by_cases h : k = k₀
    · subst k₀
      rw [AList.lookup_eq_none.2 hk]
      simp only [if_pos]
    · simp only [if_neg h]

/-- Collecting a list of pairs: a later pair replaces an earlier one with its key. -/
def ofList (l : List (K × V)) : HashMap K V :=
  l.foldl (fun m kv => m.insert kv.1 kv.2) ∅

/-- Inserting a list of pairs puts the collected list on top of the map. -/
theorem lookup_foldl_ofList (l : List (K × V)) (m : HashMap K V) (k : K) :
    (l.foldl (fun m kv => m.insert kv.1 kv.2) m).lookup k = ((ofList l).lookup k).or (m.lookup k) := by
  rw [ofList]
  induction l generalizing m with
  | nil => rfl
  | cons kv l ih =>
    rw [List.foldl_cons, List.foldl_cons, ih (m.insert kv.1 kv.2), ih (AList.insert kv.1 kv.2 ∅),
      lookup_insert_eq, lookup_insert_eq, AList.lookup_empty, Option.or_assoc]
    split <;> rfl

theorem lookup_foldl_sound {l : List (K × V)} {m : HashMap K V} {k : K} {v : V}
    (h : (l.foldl (fun m kv => m.insert kv.1 kv.2) m).lookup k = some v) :
    m.lookup k = some v ∨ (k, v) ∈ l := by
  induction l generalizing m with
  | nil => exact .inl h
  | cons kv l ih =>
    rcases ih h with h | h
    · rw [lookup_insert_eq] at h
      split at h
      · next hk =>
        cases h
        rw [hk]
        exact .inr List.mem_cons_self
      · exact .inl h
    · exact .inr (List.mem_cons_of_mem _ h)

theorem lookup_ofList_cons (kv : K × V) (l : List (K × V)) (k : K) :
    (ofList (kv :: l)).lookup k =
      ((ofList l).lookup k).or (if k = kv.1 then some kv.2 else none) := by
  have h := lookup_foldl_ofList l (AList.insert kv.1 kv.2 ∅) k
  rwa [lookup_insert_eq, AList.lookup_empty] at h

theorem mem_of_lookup_ofList {l : List (K × V)} {k : K} {v : V}
    (h : (ofList l).lookup k = some v) : (k, v) ∈ l := by
  rcases lookup_foldl_sound h with h | h
  · cases h
  · exact h

theorem exists_lookup_ofList {l : List (K × V)} {k : K} {v : V} (h : (k, v) ∈ l) :
    ∃ last, (ofList l).lookup k = some last := by
  induction l with
  | nil => cases h
  | cons kv l ih =>
    rw [lookup_ofList_cons]
    cases hl : (ofList l).lookup k with
    | some w => exact ⟨w, rfl⟩
    | none =>
      rcases List.mem_cons.1 h with rfl | h
      · exact ⟨v, if_pos rfl⟩
      · obtain ⟨w, hw⟩ := ih h
        rw [hl] at hw
        cases hw

theorem lookup_ofList_filter {p : K × V → Bool} {l : List (K × V)} {k : K} {last : V}
    (h : (ofList l).lookup k = some last) (hp : p (k, last) = true) :
    (ofList (l.filter p)).lookup k = some last := by
  induction l with
  | nil => cases h
  | cons kv l ih =>
    rw [lookup_ofList_cons, Option.or_eq_some_iff] at h
    rw [List.filter_cons]
    rcases h with h | ⟨hn, h⟩
    · split
      · rw [lookup_ofList_cons, ih h]
        rfl
      · exact ih h
    · split at h
      · next hk =>
        cases h
        have hkv : p kv = true := by rwa [hk] at hp
        have hnone : (ofList (l.filter p)).lookup k = none := by
          rw [Option.eq_none_iff_forall_ne_some]
          intro w hw
          obtain ⟨w', hw'⟩ := exists_lookup_ofList
            (List.mem_of_mem_filter (mem_of_lookup_ofList hw))
          rw [hn] at hw'
          cases hw'
        rw [if_pos hkv, lookup_ofList_cons, hnone, if_pos hk]
        rfl
      · cases h

def toList (m : HashMap K V) : List (K × V) := m.entries.map fun kv => (kv.1, kv.2)

theorem mem_toList (m : HashMap K V) (k : K) (v : V) :
    (k, v) ∈ m.toList ↔ m.lookup k = some v := by
  have h := AList.mem_lookup_iff (a := k) (b := v) (s := m)
  simp only [Option.mem_def] at h
  rw [h]
  simp only [toList, List.mem_map, Prod.mk.injEq, Sigma.exists]
  constructor
  · rintro ⟨a, b, hm, rfl, rfl⟩
    exact hm
  · intro hm
    exact ⟨k, v, hm, rfl, rfl⟩

omit [DecidableEq K] in
theorem keys_toList_nodup (m : HashMap K V) : (m.toList.map Prod.fst).Nodup := by
  have h := m.keys_nodup
  simpa only [AList.keys, List.keys, toList, List.map_map, Function.comp_def] using h

theorem lookup_foldl_insert (l : List (K × V)) (acc : HashMap K V) (k : K) (v : V)
    (hl : (l.map Prod.fst).Nodup) :
    (l.foldl (fun m kv => m.insert kv.1 kv.2) acc).lookup k = some v ↔
      (k, v) ∈ l ∨ (k ∉ l.map Prod.fst ∧ acc.lookup k = some v) := by
  induction l generalizing acc with
  | nil => simp only [List.foldl_nil, List.not_mem_nil, List.map_nil, not_false_eq_true,
      true_and, false_or]
  | cons kv l ih =>
    obtain ⟨k₀, v₀⟩ := kv
    simp only [List.map_cons, List.nodup_cons] at hl
    rw [List.foldl_cons, ih _ hl.2, lookup_insert_eq]
    by_cases h : k = k₀
    · subst k₀
      have hn : ∀ w, (k, w) ∉ l := fun w hw => hl.1 (List.mem_map_of_mem (f := Prod.fst) hw)
      simp only [hn, hl.1, ↓reduceIte, Option.some.injEq, List.mem_cons, Prod.mk.injEq, true_and,
        false_or, or_false, List.map_cons, not_true_eq_false, false_and, not_false_eq_true]
      exact eq_comm
    · simp only [h, ↓reduceIte, List.mem_cons, Prod.mk.injEq, false_and, false_or, List.map_cons]

theorem lookup_ofList (l : List (K × V)) (hl : (l.map Prod.fst).Nodup) (k : K) (v : V) :
    (ofList l).lookup k = some v ↔ (k, v) ∈ l := by
  have h := lookup_foldl_insert l ∅ k v hl
  simpa only [ofList, AList.lookup_empty, reduceCtorEq, and_false, or_false] using h

def contains (m : HashMap K V) (k : K) : Bool := (m.lookup k).isSome

theorem contains_iff_mem (m : HashMap K V) (k : K) : m.contains k = true ↔ k ∈ m :=
  AList.lookup_isSome

theorem contains_insert (m : HashMap K V) (k k' : K) (v : V) :
    contains (m.insert k v) k' = (decide (k' = k) || m.contains k') := by
  rw [contains, lookup_insert_eq, contains]
  by_cases h : k' = k
  · simp only [h, ↓reduceIte, Option.isSome_some, decide_true, Bool.true_or]
  · simp only [h, ↓reduceIte, decide_false, Bool.false_or]

theorem contains_erase (m : HashMap K V) (k k' : K) :
    contains (m.erase k) k' = (m.contains k' && decide (k' ≠ k)) := by
  rw [contains, lookup_erase_eq, contains]
  by_cases h : k' = k
  · simp only [h, ↓reduceIte, Option.isSome_none, ne_eq, not_true_eq_false, decide_false,
      Bool.and_false]
  · simp only [h, ↓reduceIte, ne_eq, not_false_eq_true, decide_true, Bool.and_true]

theorem eq_empty_of_lookup {m : HashMap K V} (h : ∀ k, m.lookup k = none) : m = ∅ := by
  apply AList.ext
  apply List.eq_nil_iff_forall_not_mem.2
  intro kv hkv
  have hl := AList.mem_lookup_iff.2 hkv
  rw [h] at hl
  cases hl

omit [DecidableEq K] in
theorem foldl_invariant {f : α → K → V → α} (I : α → Prop) (hf : ∀ a k v, I a → I (f a k v))
    (m : HashMap K V) {a : α} (ha : I a) : I (m.foldl f a) := by
  rw [AList.foldl]
  induction m.entries generalizing a with
  | nil => exact ha
  | cons kv entries ih => exact ih (hf a kv.1 kv.2 ha)

def len (m : HashMap K V) : Nat := m.entries.length

theorem len_le_of_contains {m : HashMap K V} {m' : HashMap K W}
    (h : ∀ k, m.contains k = true → m'.contains k = true) : m.len ≤ m'.len := by
  have hsub : m.keys ⊆ m'.keys := fun k hk =>
    (contains_iff_mem m' k).1 (h k ((contains_iff_mem m k).2 hk))
  have hle := m.keys_nodup.length_le_of_subset hsub
  simpa only [AList.keys, List.keys, List.length_map, len] using hle

def retain (p : V → Bool) (m : HashMap K V) : HashMap K V :=
  ⟨m.entries.filter fun kv => p kv.2, m.nodupKeys.sublist List.filter_sublist⟩

theorem lookup_retain (p : V → Bool) (m : HashMap K V) (k : K) :
    (m.retain p).lookup k = (m.lookup k).filter p := by
  apply Option.ext
  intro v
  have h := AList.mem_lookup_iff (a := k) (b := v) (s := m.retain p)
  have h' := AList.mem_lookup_iff (a := k) (b := v) (s := m)
  simp only [Option.mem_def] at h h'
  rw [h, Option.filter_eq_some_iff, h']
  exact List.mem_filter

omit [DecidableEq K] in
theorem retain_retain {p q : V → Bool} (h : ∀ v, q v = true → p v = true) (m : HashMap K V) :
    (m.retain p).retain q = m.retain q := by
  apply AList.ext
  change (m.entries.filter fun kv => p kv.2).filter (fun kv => q kv.2) =
    m.entries.filter fun kv => q kv.2
  rw [List.filter_filter]
  apply List.filter_congr
  intro kv _
  cases hq : q kv.2 with
  | false => rfl
  | true => exact h _ hq

omit [DecidableEq K] in
theorem len_retain_le (m : HashMap K V) (p : V → Bool) : len (m.retain p) ≤ m.len :=
  List.length_filter_le ..

def replaceValue (f : V → Option V) (kv : Sigma fun _ : K => V) : Option (Sigma fun _ : K => V) :=
  (f kv.2).map fun v => ⟨kv.1, v⟩

omit [DecidableEq K] in
theorem sublist_keys_filterMap (f : V → Option V) (l : List (Sigma fun _ : K => V)) :
    (l.filterMap (replaceValue f)).keys.Sublist l.keys := by
  induction l with
  | nil => exact List.Sublist.refl _
  | cons kv l ih =>
    rw [List.filterMap_cons, replaceValue]
    cases f kv.2 with
    | none => exact ih.cons kv.1
    | some v => exact ih.cons_cons kv.1

/-- Give every value to a function that replaces it, or drops its entry. -/
def retainMut (f : V → Option V) (m : HashMap K V) : HashMap K V :=
  ⟨m.entries.filterMap (replaceValue f),
    List.Sublist.nodup (sublist_keys_filterMap f m.entries) m.nodupKeys⟩

theorem lookup_retainMut (f : V → Option V) (m : HashMap K V) (k : K) :
    (m.retainMut f).lookup k = (m.lookup k).bind f := by
  apply Option.ext
  intro v
  have h := AList.mem_lookup_iff (a := k) (b := v) (s := m.retainMut f)
  have h' (w : V) := AList.mem_lookup_iff (a := k) (b := w) (s := m)
  simp only [Option.mem_def] at h h'
  rw [h, Option.bind_eq_some_iff]
  simp only [h', retainMut, List.mem_filterMap, replaceValue, Option.map_eq_some_iff]
  constructor
  · rintro ⟨kv, hkv, w, hw, he⟩
    cases he
    exact ⟨kv.2, hkv, hw⟩
  · rintro ⟨w, hw, hv⟩
    exact ⟨⟨k, w⟩, hw, v, hv, rfl⟩

/-- The sum of a quantity over the entries. -/
def weigh (f : K → V → Nat) (m : HashMap K V) : Nat := (m.toList.map fun kv => f kv.1 kv.2).sum

theorem weigh_insert (f : K → V → Nat) (m : HashMap K V) (k : K) (v : V) :
    weigh f (m.insert k v) = f k v + weigh f (m.erase k) := List.sum_cons

theorem weigh_eq_erase (f : K → V → Nat) (m : HashMap K V) (k : K) :
    m.weigh f = (m.lookup k).elim 0 (f k) + weigh f (m.erase k) := by
  have h : ∀ l : List (Sigma fun _ : K => V), ((l.map fun kv => (kv.1, kv.2)).map
      fun kv => f kv.1 kv.2).sum = (l.dlookup k).elim 0 (f k) +
        (((l.kerase k).map fun kv => (kv.1, kv.2)).map fun kv => f kv.1 kv.2).sum := by
    intro l
    induction l with
    | nil => rfl
    | cons kv l ih =>
      by_cases hk : k = kv.1
      · subst hk
        rw [List.dlookup_cons_eq, List.kerase_cons_eq rfl]
        rfl
      · rw [List.dlookup_cons_ne _ _ hk, List.kerase_cons_ne hk]
        simp only [List.map_cons, List.sum_cons, ih]
        omega
  exact h m.entries

theorem weigh_erase_le (f : K → V → Nat) (m : HashMap K V) (k : K) :
    weigh f (m.erase k) ≤ m.weigh f := by
  rw [m.weigh_eq_erase f k]
  exact Nat.le_add_left ..

theorem weigh_insert_of_none (f : K → V → Nat) {m : HashMap K V} {k : K} (h : m.lookup k = none)
    (v : V) : weigh f (m.insert k v) = f k v + m.weigh f := by
  rw [weigh_insert, m.weigh_eq_erase f k, h, Option.elim_none, Nat.zero_add]

theorem weigh_insert_of_some {f : K → V → Nat} {m : HashMap K V} {k : K} {v v' : V}
    (h : m.lookup k = some v) (hw : f k v' = f k v) : weigh f (m.insert k v') = m.weigh f := by
  rw [weigh_insert, m.weigh_eq_erase f k, h, Option.elim_some, hw]

def tally (f : V → Nat) (m : HashMap K V) : Nat := (m.toList.map fun kv => f kv.2).sum

theorem tally_insert (f : V → Nat) (m : HashMap K V) (k : K) (v : V) :
    tally f (m.insert k v) = f v + tally f (m.erase k) := weigh_insert (fun _ => f) m k v

theorem tally_eq_erase (f : V → Nat) (m : HashMap K V) (k : K) :
    m.tally f = (m.lookup k).elim 0 f + tally f (m.erase k) := weigh_eq_erase (fun _ => f) m k

omit [DecidableEq K] in
theorem len_eq_tally (m : HashMap K V) : m.len = m.tally fun _ => 1 := by
  simp only [len, tally, toList, List.map_map, Function.comp_def, List.map_const',
    List.sum_replicate_nat, Nat.mul_one]

theorem len_eq_erase (m : HashMap K V) (k : K) :
    m.len = (m.lookup k).elim 0 (fun _ => 1) + len (m.erase k) := by
  rw [len_eq_tally, len_eq_tally]
  exact tally_eq_erase _ m k

theorem len_erase_le (m : HashMap K V) (k : K) : len (m.erase k) ≤ m.len := by
  rw [m.len_eq_erase k]
  exact Nat.le_add_left ..

theorem len_erase_lt {m : HashMap K V} {k : K} {v : V} (h : m.lookup k = some v) :
    len (m.erase k) < m.len := by
  rw [m.len_eq_erase k, h]
  exact Nat.lt_add_of_pos_left Nat.one_pos

theorem len_insert (m : HashMap K V) (k : K) (v : V) :
    len (m.insert k v) = 1 + len (m.erase k) := by
  rw [len_eq_tally, len_eq_tally]
  exact tally_insert _ m k v

theorem len_insert_le (m : HashMap K V) (k : K) (v : V) : len (m.insert k v) ≤ m.len + 1 := by
  rw [len_insert, Nat.add_comm]
  exact Nat.succ_le_succ (len_erase_le m k)

end HashMap

end Lib
