import Reconcile.Lib.Transition
import Reconcile.Replica

namespace Reconcile
open Lib
set_option autoImplicit true

inductive LocalCall (K V : Type) where
  | insert (key : K) (value : V)
  | remove (key : K)
  | insertBulk (keyValues : List (K × V))
  | removeBulk (keys : List K)
  | getMut (key : K) (callback : V → V)
  | update (key : K) (callback : V → V) (validate : V → Except Unit Unit)

/-- A call on its way: its stamps are minted one by one, before it takes the locks. -/
structure Pending (K V T : Type) where
  call : LocalCall K V
  stamps : List T := []

variable {K V P T : Type} [DecidableEq K] [DecidableEq P]

namespace LocalCall

def mints : LocalCall K V → Nat
  | .insertBulk keyValues => keyValues.length
  | .removeBulk keys => keys.length
  | _ => 1

def store (r : Replica K V P T) : LocalCall K V → List T → Replica K V P T
  | .insert k v, [now] => (r.justInsert k (.present now v)).2
  | .remove k, [now] => (r.justInsert k (.tombstone now)).2
  | .insertBulk kvs, stamps =>
    r.justInsertBulk (kvs.zipWith (fun kv now => (kv.1, .present now kv.2)) stamps)
  | .removeBulk keys, stamps =>
    r.justInsertBulk (keys.zipWith (fun k now => (k, .tombstone now)) stamps)
  | .getMut k callback, [now] => (r.getMut k callback now).2
  | .update k callback validate, [now] => (r.mutateLiveChecked k callback validate now).2
  | _, _ => r

def writes (r : Replica K V P T) : LocalCall K V → List T → List (K × Entry T V)
  | .insert k v, [now] => [(k, .present now v)]
  | .remove k, [now] => [(k, .tombstone now)]
  | .insertBulk kvs, stamps => kvs.zipWith (fun kv now => (kv.1, .present now kv.2)) stamps
  | .removeBulk keys, stamps => keys.zipWith (fun k now => (k, .tombstone now)) stamps
  | .getMut k callback, [now] => (r.getMut k callback now).1.toList.map (Prod.mk k)
  | .update k callback validate, [now] =>
    match (r.mutateLiveChecked k callback validate now).1 with
    | .ok updated => updated.toList.map (Prod.mk k)
    | .error _ => []
  | _, _ => []

omit [DecidableEq K] in
theorem sublist_zipWith (f : α → T → K × Entry T V) (l : List α) (stamps : List T)
    (hf : ∀ a t, (f a t).2.stamp = t) :
    ((l.zipWith f stamps).map (fun kv => kv.2.stamp)).Sublist stamps := by
  induction l generalizing stamps with
  | nil => exact List.nil_sublist _
  | cons a l ih =>
    cases stamps with
    | nil => exact List.nil_sublist _
    | cons t stamps =>
      rw [List.zipWith_cons_cons, List.map_cons, hf]
      exact (ih stamps).cons_cons t

theorem store_map (r : Replica K V P T) (call : LocalCall K V) (stamps : List T) :
    (call.store r stamps).map =
      (call.writes r stamps).foldl (fun m kv => m.insert kv.1 kv.2) r.map := by
  fun_cases call.store r stamps with
  | case1 k v now => rfl
  | case2 k now => rfl
  | case3 kvs stamps => exact r.mapInsertAll_map _
  | case4 keys stamps => exact r.mapInsertAll_map _
  | case5 k callback now =>
    simp only [writes, Replica.getMut]
    split <;> rfl
  | case6 k callback validate now =>
    simp only [writes, Replica.mutateLiveChecked]
    split
    · split <;> rfl
    · rfl
  | case7 call stamps =>
    rw [writes] <;> first | rfl | assumption

theorem store_mirrored {r : Replica K V P T} (h : r.Mirrored) (call : LocalCall K V)
    (stamps : List T) : (call.store r stamps).Mirrored := by
  fun_cases call.store r stamps with
  | case1 k v now => exact (h.mapInsert k _).recordChanges 1
  | case2 k now => exact (h.mapInsert k _).recordChanges 1
  | case3 kvs stamps => exact (h.mapInsertAll _).recordChanges _
  | case4 keys stamps => exact (h.mapInsertAll _).recordChanges _
  | case5 k callback now => exact h.getMut k callback now
  | case6 k callback validate now => exact h.mutateLiveChecked k callback validate now
  | case7 call stamps => exact h

theorem stamps_writes (r : Replica K V P T) (call : LocalCall K V) (stamps : List T) :
    ((call.writes r stamps).map (fun kv => kv.2.stamp)).Sublist stamps := by
  fun_cases call.writes r stamps with
  | case1 k v now => exact List.Sublist.refl _
  | case2 k now => exact List.Sublist.refl _
  | case3 kvs stamps => exact sublist_zipWith _ _ _ fun _ _ => rfl
  | case4 keys stamps => exact sublist_zipWith _ _ _ fun _ _ => rfl
  | case5 k callback now =>
    rw [Replica.getMut]
    split
    · exact List.Sublist.refl _
    · exact List.nil_sublist _
  | case6 k callback validate now updated hu =>
    rw [Replica.mutateLiveChecked] at hu
    split at hu
    · split at hu
      · cases hu
      · cases hu
        exact List.Sublist.refl _
    · cases hu
      exact List.nil_sublist _
  | case7 k callback validate now err hu => exact List.nil_sublist _
  | case8 call stamps => exact List.nil_sublist _

end LocalCall

/-- A replica with its calls in progress. `clock` is every stamp minted or observed, and
`history` every entry written or received so far. -/
structure Engine (K V P T : Type) where
  replica : Replica K V P T := {}
  clock : List T := []
  applying : List (List (K × Entry T V)) := []
  writing : List (Pending K V T) := []
  history : List (K × Entry T V) := []

namespace Engine

inductive Event (K V T : Type) where
  | receive (updates : List (K × Entry T V))
  | merge (i : Nat)
  | call (call : LocalCall K V)
  | mint (i : Nat) (now : T)
  | store (i : Nat)

variable [LinearOrder T] (R : Rsos T V)

/-- One atomic step: a received batch is filtered against a read snapshot or merged under the
write lock, a local call begins, mints its next stamp or runs its locked section. -/
def step (c : Engine K V P T) : Event K V T → Option (Engine K V P T)
  | .receive updates =>
    let toApply := (filterDatedUpdates R c.replica.map updates).1
    some { c with
      clock := updates.map (fun kv => kv.2.stamp) ++ c.clock
      applying := if toApply.isEmpty then c.applying else c.applying ++ [toApply]
      history := updates ++ c.history }
  | .merge i =>
    match c.applying[i]? with
    | some toApply =>
      some { c with
        replica := (c.replica.mergeDatedUpdates R toApply).1
        applying := c.applying.eraseIdx i }
    | none => none
  | .call call => some { c with writing := c.writing ++ [⟨call, []⟩] }
  | .mint i now =>
    match c.writing[i]? with
    | some p =>
      if p.stamps.length < p.call.mints ∧ ∀ t ∈ c.clock, t < now then
        some { c with
          clock := now :: c.clock
          writing := c.writing.set i { p with stamps := p.stamps ++ [now] } }
      else none
    | none => none
  | .store i =>
    match c.writing[i]? with
    | some p =>
      if p.stamps.length = p.call.mints then
        some { c with
          replica := p.call.store c.replica p.stamps
          writing := c.writing.eraseIdx i
          history := p.call.writes c.replica p.stamps ++ c.history }
      else none
    | none => none

/-- At a local store, no key holds a stamp above the one the call is about to leave there. -/
def inOrder (c : Engine K V P T) : Event K V T → Bool
  | .store i =>
    match c.writing[i]? with
    | some p =>
      (HashMap.ofList (p.call.writes c.replica p.stamps)).toList.all fun kv =>
        (c.replica.map.lookup kv.1).all fun e => e.stamp ≤ kv.2.stamp
    | none => true
  | _ => true

structure Inv (c : Engine K V P T) : Prop where
  mirrored : c.replica.Mirrored
  sound : ∀ k e, c.replica.map.lookup k = some e → (k, e) ∈ c.history
  batches : ∀ b ∈ c.applying, ∀ u ∈ b, u ∈ c.history
  covered : ∀ k e, (k, e) ∈ c.history →
    HashMap.Covers Entry.stamp c.replica.map k e ∨ ∃ b ∈ c.applying, (k, e) ∈ b
  minted : ∀ p ∈ c.writing, p.stamps.Pairwise (· < ·) ∧ ∀ t ∈ p.stamps, t ∈ c.clock

variable {R : Rsos T V} {c c' : Engine K V P T}

theorem step_merge (h : c.step R (.merge i) = some c') :
    ∃ toApply, c.applying[i]? = some toApply ∧
      c' = { c with
        replica := (c.replica.mergeDatedUpdates R toApply).1
        applying := c.applying.eraseIdx i } := by
  rw [step] at h
  split at h
  · next toApply hi => exact ⟨toApply, hi, (Option.some.inj h).symm⟩
  · cases h

theorem step_mint (h : c.step R (.mint i now) = some c') :
    ∃ p, c.writing[i]? = some p ∧ (∀ t ∈ c.clock, t < now) ∧
      c' = { c with
        clock := now :: c.clock
        writing := c.writing.set i { p with stamps := p.stamps ++ [now] } } := by
  rw [step] at h
  split at h
  · next p hi =>
    split at h
    · next hc => exact ⟨p, hi, hc.2, (Option.some.inj h).symm⟩
    · cases h
  · cases h

theorem step_store (h : c.step R (.store i) = some c') :
    ∃ p, c.writing[i]? = some p ∧
      c' = { c with
        replica := p.call.store c.replica p.stamps
        writing := c.writing.eraseIdx i
        history := p.call.writes c.replica p.stamps ++ c.history } := by
  rw [step] at h
  split at h
  · next p hi =>
    split at h
    · exact ⟨p, hi, (Option.some.inj h).symm⟩
    · cases h
  · cases h

theorem inOrder_store_iff {p : Pending K V T} (h : c.writing[i]? = some p) :
    c.inOrder (.store i) = true ↔ ∀ k v w,
      (HashMap.ofList (p.call.writes c.replica p.stamps)).lookup k = some v →
        c.replica.map.lookup k = some w → w.stamp ≤ v.stamp := by
  simp only [inOrder, h, List.all_eq_true, Option.all_eq_true, decide_eq_true_eq, Prod.forall,
    HashMap.mem_toList]
  constructor
  · intro ho k v w hv hw
    exact ho k v hv w hw
  · intro ho k v hv w hw
    exact ho k v w hv hw

/-- A step moves no stamp down exactly when it is in order. -/
theorem grows_iff (h : c.step R ev = some c') :
    HashMap.Grows Entry.stamp c.replica.map c'.replica.map ↔ c.inOrder ev = true := by
  cases ev with
  | receive updates =>
    cases h
    exact iff_of_true (.refl _) rfl
  | merge i =>
    obtain ⟨toApply, _, rfl⟩ := step_merge h
    exact iff_of_true (c.replica.mergeLoop_grows R toApply) rfl
  | call call =>
    cases h
    exact iff_of_true (.refl _) rfl
  | mint i now =>
    obtain ⟨p, _, _, rfl⟩ := step_mint h
    exact iff_of_true (.refl _) rfl
  | store i =>
    obtain ⟨p, hp, rfl⟩ := step_store h
    rw [inOrder_store_iff hp, LocalCall.store_map]
    exact HashMap.grows_foldl_insert_iff _ _

theorem Inv.receive (h : c.Inv) (updates : List (K × Entry T V))
    (hs : c.step R (.receive updates) = some c') : c'.Inv := by
  cases hs
  constructor
  · exact h.mirrored
  · intro k e he
    exact List.mem_append_right _ (h.sound k e he)
  · intro b hb u hu
    split at hb
    · exact List.mem_append_right _ (h.batches b hb u hu)
    · rcases List.mem_append.1 hb with hb | hb
      · exact List.mem_append_right _ (h.batches b hb u hu)
      · rw [List.mem_singleton.1 hb] at hu
        exact List.mem_append_left _ (mem_filterDatedUpdates R hu)
  · intro k e he
    rcases List.mem_append.1 he with he | he
    · rcases covers_or_mem_filterDatedUpdates R he with hc | hm
      · exact .inl hc
      · right
        refine ⟨_, ?_, hm⟩
        rw [if_neg]
        · exact List.mem_append_right _ List.mem_cons_self
        · intro hn
          rw [List.isEmpty_iff.1 hn] at hm
          cases hm
    · rcases h.covered k e he with hc | ⟨b, hb, hm⟩
      · exact .inl hc
      · right
        refine ⟨b, ?_, hm⟩
        split
        · exact hb
        · exact List.mem_append_left _ hb
  · intro p hp
    obtain ⟨ho, hc⟩ := h.minted p hp
    exact ⟨ho, fun t ht => List.mem_append_right _ (hc t ht)⟩

theorem Inv.merge (h : c.Inv) (hs : c.step R (.merge i) = some c') : c'.Inv := by
  obtain ⟨toApply, hi, rfl⟩ := step_merge hs
  have hmem : toApply ∈ c.applying := List.mem_of_getElem? hi
  constructor
  · exact (h.mirrored.mergeLoop R toApply).recordChanges _
  · intro k e he
    rcases Replica.mergeLoop_sound R he with he | he
    · exact h.sound k e he
    · exact h.batches toApply hmem (k, e) he
  · intro b hb
    exact h.batches b (List.mem_of_mem_eraseIdx hb)
  · intro k e he
    rcases h.covered k e he with hc | ⟨b, hb, hm⟩
    · exact .inl (hc.grows (c.replica.mergeLoop_grows R toApply))
    · obtain ⟨j, hj⟩ := List.mem_iff_getElem?.1 hb
      by_cases hij : j = i
      · rw [hij, hi] at hj
        cases hj
        exact .inl (Replica.mergeLoop_covers R hm)
      · exact .inr ⟨b, List.mem_eraseIdx_iff_getElem?.2 ⟨j, hij, hj⟩, hm⟩
  · exact h.minted

theorem Inv.call (h : c.Inv) (call : LocalCall K V) (hs : c.step R (.call call) = some c') :
    c'.Inv := by
  cases hs
  constructor
  · exact h.mirrored
  · exact h.sound
  · exact h.batches
  · exact h.covered
  · intro p hp
    rcases List.mem_append.1 hp with hp | hp
    · exact h.minted p hp
    · rw [List.mem_singleton.1 hp]
      exact ⟨List.Pairwise.nil, fun t ht => by cases ht⟩

theorem Inv.mint (h : c.Inv) (hs : c.step R (.mint i now) = some c') : c'.Inv := by
  obtain ⟨p, hi, hnow, rfl⟩ := step_mint hs
  constructor
  · exact h.mirrored
  · exact h.sound
  · exact h.batches
  · exact h.covered
  · intro q hq
    rcases List.mem_or_eq_of_mem_set hq with hq | rfl
    · obtain ⟨ho, hc⟩ := h.minted q hq
      exact ⟨ho, fun t ht => List.mem_cons_of_mem _ (hc t ht)⟩
    · obtain ⟨ho, hc⟩ := h.minted p (List.mem_of_getElem? hi)
      constructor
      · refine List.pairwise_append.2 ⟨ho, List.pairwise_singleton _ _, ?_⟩
        intro t ht s hs
        rw [List.mem_singleton.1 hs]
        exact hnow t (hc t ht)
      · intro t ht
        rcases List.mem_append.1 ht with ht | ht
        · exact List.mem_cons_of_mem _ (hc t ht)
        · rw [List.mem_singleton.1 ht]
          exact List.mem_cons_self

theorem Inv.store (h : c.Inv) (hs : c.step R (.store i) = some c')
    (ho : c.inOrder (.store i) = true) : c'.Inv := by
  have hg := (grows_iff hs).2 ho
  obtain ⟨p, hi, rfl⟩ := step_store hs
  have hp : (p.call.writes c.replica p.stamps).Pairwise fun a b => a.2.stamp ≤ b.2.stamp := by
    have hm := (h.minted p (List.mem_of_getElem? hi)).1.sublist (p.call.stamps_writes c.replica p.stamps)
    exact (List.pairwise_map.1 hm).imp le_of_lt
  constructor
  · exact LocalCall.store_mirrored h.mirrored p.call p.stamps
  · intro k e he
    rw [LocalCall.store_map] at he
    rcases HashMap.lookup_foldl_sound he with he | he
    · exact List.mem_append_right _ (h.sound k e he)
    · exact List.mem_append_left _ he
  · intro b hb u hu
    exact List.mem_append_right _ (h.batches b hb u hu)
  · intro k e he
    rcases List.mem_append.1 he with he | he
    · left
      rw [LocalCall.store_map]
      exact HashMap.covers_foldl_insert hp _ he
    · rcases h.covered k e he with hc | hb
      · exact .inl (hc.grows hg)
      · exact .inr hb
  · intro q hq
    exact h.minted q (List.mem_of_mem_eraseIdx hq)

theorem Inv.step (h : c.Inv) (hs : c.step R ev = some c') (ho : c.inOrder ev = true) : c'.Inv := by
  cases ev with
  | receive updates => exact h.receive updates hs
  | merge i => exact h.merge hs
  | call call => exact h.call call hs
  | mint i now => exact h.mint hs
  | store i => exact h.store hs ho

omit [DecidableEq P] in
theorem inv_empty : ({} : Engine K V P T).Inv := by
  constructor
  · constructor
    · intro k
      rfl
    · intro k
      simp only [AList.notMem_empty, AList.lookup_empty, reduceCtorEq, false_and, exists_false]
  · intro k e he
    cases he
  · intro b hb
    cases hb
  · intro k e he
    cases he
  · intro p hp
    cases hp

end Engine

end Reconcile
