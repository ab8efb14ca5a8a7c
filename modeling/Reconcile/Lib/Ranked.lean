import Reconcile.Lib.HashMap

namespace Lib.HashMap
set_option autoImplicit true

variable {K V T : Type} [DecidableEq K] [LinearOrder T] {rank : V → T}

/-- The map holds, for `k`, a value of at least the rank of `v`. -/
def Covers (rank : V → T) (m : HashMap K V) (k : K) (v : V) : Prop :=
  ∃ w, m.lookup k = some w ∧ rank v ≤ rank w

def Grows (rank : V → T) (m m' : HashMap K V) : Prop :=
  ∀ k v, m.lookup k = some v → Covers rank m' k v

/-- A value of greatest rank among those seen for a key. -/
structure Newest (rank : V → T) (seen : K → V → Prop) (k : K) (v : V) : Prop where
  mem : seen k v
  le : ∀ w, seen k w → rank w ≤ rank v

theorem Covers.of_lookup {m : HashMap K V} {k : K} {v : V} (h : m.lookup k = some v) :
    Covers rank m k v :=
  ⟨v, h, le_rfl⟩

theorem Covers.grows {m m' : HashMap K V} {k : K} {v : V} (h : Covers rank m k v)
    (hg : Grows rank m m') : Covers rank m' k v := by
  obtain ⟨w, hw, hv⟩ := h
  obtain ⟨w', hw', hl⟩ := hg k w hw
  exact ⟨w', hw', le_trans hv hl⟩

theorem Covers.mono {m : HashMap K V} {k : K} {v w : V} (h : Covers rank m k w)
    (hv : rank v ≤ rank w) : Covers rank m k v := by
  obtain ⟨u, hu, hw⟩ := h
  exact ⟨u, hu, le_trans hv hw⟩

theorem Grows.refl (m : HashMap K V) : Grows rank m m :=
  fun _ _ h => .of_lookup h

theorem Grows.trans {m₁ m₂ m₃ : HashMap K V} (h : Grows rank m₁ m₂) (h' : Grows rank m₂ m₃) :
    Grows rank m₁ m₃ :=
  fun k v hv => (h k v hv).grows h'

theorem covers_insert (m : HashMap K V) (k : K) (v : V) : Covers rank (m.insert k v) k v :=
  .of_lookup (AList.lookup_insert m)

theorem grows_insert_iff (m : HashMap K V) (k : K) (v : V) :
    Grows rank m (m.insert k v) ↔ ∀ w, m.lookup k = some w → rank w ≤ rank v := by
  constructor
  · intro h w hw
    obtain ⟨u, hu, hl⟩ := h k w hw
    rw [AList.lookup_insert] at hu
    cases hu
    exact hl
  · intro h k' w hw
    by_cases hk : k' = k
    · subst k'
      exact (covers_insert m k v).mono (h w hw)
    · refine .of_lookup ?_
      rw [lookup_insert_eq, if_neg hk, hw]

theorem Covers.foldl_insert {m : HashMap K V} {k : K} {v : V} (h : Covers rank m k v)
    (l : List (K × V)) (hl : ∀ kv ∈ l, rank v ≤ rank kv.2) :
    Covers rank (l.foldl (fun m kv => m.insert kv.1 kv.2) m) k v := by
  induction l generalizing m with
  | nil => exact h
  | cons kv l ih =>
    have hc : Covers rank (m.insert kv.1 kv.2) k v := by
      obtain ⟨w, hw, hv⟩ := h
      by_cases hk : k = kv.1
      · rw [hk]
        exact (covers_insert m kv.1 kv.2).mono (hl kv List.mem_cons_self)
      · refine ⟨w, ?_, hv⟩
        rw [lookup_insert_eq, if_neg hk, hw]
    exact ih hc fun kv' h' => hl kv' (List.mem_cons_of_mem _ h')

theorem covers_foldl_insert {l : List (K × V)} (hl : l.Pairwise fun a b => rank a.2 ≤ rank b.2)
    (m : HashMap K V) {k : K} {v : V} (h : (k, v) ∈ l) :
    Covers rank (l.foldl (fun m kv => m.insert kv.1 kv.2) m) k v := by
  induction l generalizing m with
  | nil => cases h
  | cons kv l ih =>
    obtain ⟨hkv, hl⟩ := List.pairwise_cons.1 hl
    rcases List.mem_cons.1 h with rfl | h
    · exact (covers_insert m k v).foldl_insert l hkv
    · exact ih hl (m.insert kv.1 kv.2) h

/-- A list of writes grows the map exactly when the last write of each key does. -/
theorem grows_foldl_insert_iff (l : List (K × V)) (m : HashMap K V) :
    Grows rank m (l.foldl (fun m kv => m.insert kv.1 kv.2) m) ↔
      ∀ k v w, (ofList l).lookup k = some v → m.lookup k = some w → rank w ≤ rank v := by
  constructor
  · intro h k v w hv hw
    obtain ⟨u, hu, hl⟩ := h k w hw
    rw [lookup_foldl_ofList, hv, Option.some_or] at hu
    cases hu
    exact hl
  · intro h k w hw
    cases hv : (ofList l).lookup k with
    | some v =>
      refine ⟨v, ?_, h k v w hv hw⟩
      rw [lookup_foldl_ofList, hv, Option.some_or]
    | none =>
      refine .of_lookup ?_
      rw [lookup_foldl_ofList, hv, Option.none_or, hw]

omit [DecidableEq K] in
theorem Newest.unique {seen : K → V → Prop} {k : K} {v w : V}
    (hs : ∀ v w, seen k v → seen k w → rank v = rank w → v = w)
    (hv : Newest rank seen k v) (hw : Newest rank seen k w) : v = w :=
  hs v w hv.mem hw.mem (le_antisymm (hw.le v hv.mem) (hv.le w hw.mem))

/-- A map that holds only seen values and covers all of them holds the newest of each key. -/
theorem newest_of_covers {m : HashMap K V} {seen : K → V → Prop}
    (hs : ∀ k v, m.lookup k = some v → seen k v) (hc : ∀ k v, seen k v → Covers rank m k v)
    (hu : ∀ k v w, seen k v → seen k w → rank v = rank w → v = w) (k : K) (v : V) :
    m.lookup k = some v ↔ Newest rank seen k v := by
  have hn : ∀ w, m.lookup k = some w → Newest rank seen k w := by
    intro w hw
    constructor
    · exact hs k w hw
    · intro u hu
      obtain ⟨w', hw', hl⟩ := hc k u hu
      rw [hw] at hw'
      cases hw'
      exact hl
  constructor
  · exact hn v
  · intro h
    obtain ⟨w, hw, _⟩ := hc k v h.mem
    rw [hw, (hn w hw).unique (hu k) h]

end Lib.HashMap
