import Reconcile.Generation
import Reconcile.Lib.Ranked

namespace Reconcile
open Lib
set_option autoImplicit true

/-- What the register crate supplies: the merge, and the digests of a state and of an entry. -/
structure Rsos (T V : Type) [LinearOrder T] extends Merge T V where
  digest : State V → Nat
  entryDigest : Entry T V → Nat

def Rsos.versionHash [LinearOrder T] (R : Rsos T V) (e : Entry T V) : Nat :=
  R.entryDigest e % 2 ^ 64

structure Replica (K V P T : Type) where
  map : HashMap K (Entry T V) := ∅
  projection : HashMap K (State V) := ∅
  liveTombstones : HashSet K := ∅
  generations : GenerationState K V P T := {}
  changesSinceSnapshot : Nat := 0
  collisionReported : Bool := false

def State.modify (f : V → V) : State V → State V
  | .present v => .present (f v)
  | .tombstone => .tombstone

variable {K V P T : Type} [DecidableEq K] [DecidableEq P]

namespace Replica

def recordChanges (r : Replica K V P T) (n : Nat) : Replica K V P T :=
  { r with changesSinceSnapshot := (r.changesSinceSnapshot + n) % (u64Max + 1) }

def mapInsert (r : Replica K V P T) (key : K) (value : Entry T V) : Replica K V P T :=
  { r with
    liveTombstones :=
      if value.isTombstone then r.liveTombstones.insert key () else r.liveTombstones.erase key
    generations := r.generations.record (.entry key value)
    projection := r.projection.insert key value.project
    map := r.map.insert key value }

def mapInsertAll (r : Replica K V P T) (keyValues : List (K × Entry T V)) : Replica K V P T :=
  keyValues.foldl (fun r kv => r.mapInsert kv.1 kv.2) r

def justInsert (r : Replica K V P T) (key : K) (value : Entry T V) :
    Option (Entry T V) × Replica K V P T :=
  (r.map.lookup key, (r.mapInsert key value).recordChanges 1)

def justInsertBulk (r : Replica K V P T) (keyValues : List (K × Entry T V)) : Replica K V P T :=
  (r.mapInsertAll keyValues).recordChanges keyValues.length

/-- The in-place write shared by the mutators: the map and the projection take the entry, the
tombstone index is left alone. -/
def overwrite (r : Replica K V P T) (k : K) (e : Entry T V) : Replica K V P T :=
  { r with
    map := r.map.insert k e
    projection := r.projection.insert k e.project
    generations := r.generations.record (.entry k e) }

/-- The locked section of `get_mut`; the result is the entry to broadcast. The callback sees no
value of a tombstone, whose stamp is still replaced. -/
def getMut (r : Replica K V P T) (k : K) (callback : V → V) (now : T) :
    Option (Entry T V) × Replica K V P T :=
  match r.map.lookup k with
  | some entry =>
    let updated : Entry T V := ⟨now, entry.state.modify callback⟩
    (some updated, (r.overwrite k updated).recordChanges 1)
  | none => (none, r)

/-- The locked section of `mutate_live_checked`. A rejected value is never stored. -/
def mutateLiveChecked (r : Replica K V P T) (k : K) (callback : V → V)
    (validate : V → Except ε Unit) (now : T) :
    Except ε (Option (Entry T V)) × Replica K V P T :=
  match (r.map.lookup k).bind Entry.value with
  | some v =>
    match validate (callback v) with
    | .error err => (.error err, r)
    | .ok () =>
      let updated := Entry.present now (callback v)
      (.ok (some updated), (r.overwrite k updated).recordChanges 1)
  | none => (.ok none, r)

theorem mapInsertAll_map (r : Replica K V P T) (kvs : List (K × Entry T V)) :
    (r.mapInsertAll kvs).map = kvs.foldl (fun m kv => m.insert kv.1 kv.2) r.map := by
  induction kvs generalizing r with
  | nil => rfl
  | cons kv kvs ih => exact ih (r.mapInsert kv.1 kv.2)

structure Mirrored (r : Replica K V P T) : Prop where
  projection : ∀ k, r.projection.lookup k = (r.map.lookup k).map Entry.project
  tombstones : ∀ k, k ∈ r.liveTombstones ↔ ∃ e, r.map.lookup k = some e ∧ e.isTombstone = true

theorem Mirrored.mapInsert {r : Replica K V P T} (h : r.Mirrored) (key : K) (value : Entry T V) :
    (r.mapInsert key value).Mirrored := by
  constructor
  · intro k
    simp only [Replica.mapInsert, HashMap.lookup_insert_eq]
    split
    · rfl
    · exact h.projection k
  · intro k
    simp only [Replica.mapInsert, HashMap.lookup_insert_eq]
    by_cases hk : k = key
    · simp only [hk, ↓reduceIte, Option.some.injEq, exists_eq_left']
      split
      · next ht => simp only [AList.mem_insert, true_or, ht]
      · next ht => simp only [AList.mem_erase, ne_eq, not_true_eq_false, false_and, ht,
          Bool.false_eq_true]
    · simp only [if_neg hk, ← h.tombstones k]
      split
      · simp only [AList.mem_insert, hk, false_or]
      · simp only [AList.mem_erase, ne_eq, hk, not_false_eq_true, true_and]

theorem Mirrored.mapInsertAll {r : Replica K V P T} (h : r.Mirrored)
    (keyValues : List (K × Entry T V)) : (r.mapInsertAll keyValues).Mirrored := by
  induction keyValues generalizing r with
  | nil => exact h
  | cons kv keyValues ih => exact ih (h.mapInsert kv.1 kv.2)

/-- An in-place write keeps the index right when it leaves a dead key dead and a live key live. -/
theorem Mirrored.overwrite {r : Replica K V P T} (h : r.Mirrored) {k : K} {e₀ : Entry T V}
    (e : Entry T V) (hk : r.map.lookup k = some e₀) (ht : e.isTombstone = e₀.isTombstone) :
    (r.overwrite k e).Mirrored := by
  constructor
  · intro k'
    simp only [Replica.overwrite, HashMap.lookup_insert_eq]
    split
    · rfl
    · exact h.projection k'
  · intro k'
    simp only [Replica.overwrite, HashMap.lookup_insert_eq, h.tombstones k']
    by_cases hk' : k' = k
    · subst k'
      simp only [hk, ↓reduceIte, Option.some.injEq, exists_eq_left', ht]
    · simp only [if_neg hk']

omit [DecidableEq P] in
theorem Mirrored.recordChanges {r : Replica K V P T} (h : r.Mirrored) (n : Nat) :
    (r.recordChanges n).Mirrored :=
  ⟨h.projection, h.tombstones⟩

theorem Mirrored.getMut {r : Replica K V P T} (h : r.Mirrored) (k : K) (callback : V → V)
    (now : T) : (r.getMut k callback now).2.Mirrored := by
  rw [Replica.getMut]
  split
  · next e he =>
    refine (h.overwrite _ he ?_).recordChanges 1
    cases e with
    | mk stamp state => cases state <;> rfl
  · exact h

theorem Mirrored.mutateLiveChecked {r : Replica K V P T} (h : r.Mirrored) (k : K)
    (callback : V → V) (validate : V → Except ε Unit) (now : T) :
    (r.mutateLiveChecked k callback validate now).2.Mirrored := by
  rw [Replica.mutateLiveChecked]
  split
  · next v hv =>
    obtain ⟨e, he, hv⟩ := Option.bind_eq_some_iff.1 hv
    split
    · exact h
    · refine (h.overwrite _ he ?_).recordChanges 1
      cases e with
      | mk stamp state =>
        cases state with
        | present _ => rfl
        | tombstone => cases hv
  · exact h

end Replica

variable [LinearOrder T] (R : Rsos T V)

def isNodeIdCollision (localV remote : Entry T V) : Bool :=
  localV.stamp = remote.stamp && R.digest localV.state != R.digest remote.state

/-- The read-snapshot phase of `apply_dated_updates`: the updates that can change the state, and
the acknowledgements due for tombstones held already. -/
def filterDatedUpdates (guard : HashMap K (Entry T V)) :
    List (K × Entry T V) → List (K × Entry T V) × List (K × Nat)
  | [] => ([], [])
  | (k, remote) :: updates =>
    let rest := filterDatedUpdates guard updates
    match guard.lookup k with
    | some localV =>
      if localV.stamp < remote.stamp then ((k, remote) :: rest.1, rest.2)
      else if localV.isTombstone then (rest.1, (k, R.versionHash localV) :: rest.2)
      else rest
    | none => ((k, remote) :: rest.1, rest.2)

namespace Replica

def mergedEntry (r : Replica K V P T) (k : K) (v : Entry T V) : Entry T V :=
  match r.map.lookup k with
  | some localV => R.merge localV v
  | none => v

def reportCollision (r : Replica K V P T) (k : K) (v : Entry T V) : Replica K V P T :=
  { r with
    collisionReported := r.collisionReported ||
      (r.map.lookup k).any (fun localV => isNodeIdCollision R localV v) }

def mergeUpdate (r : Replica K V P T) (k : K) (v : Entry T V) : Replica K V P T :=
  (r.reportCollision R k v).mapInsert k (r.mergedEntry R k v)

def mergeLoop : Replica K V P T → List (K × Entry T V) → Replica K V P T × List (K × Nat)
  | r, [] => (r, [])
  | r, (k, v) :: toApply =>
    let merged := r.mergedEntry R k v
    let rest := mergeLoop (r.mergeUpdate R k v) toApply
    (rest.1, if merged.isTombstone then (k, R.versionHash merged) :: rest.2 else rest.2)

def mergeDatedUpdates (r : Replica K V P T) (toApply : List (K × Entry T V)) :
    Replica K V P T × List (K × Nat) :=
  let merged := r.mergeLoop R toApply
  (merged.1.recordChanges toApply.length, merged.2)

end Replica

theorem mem_filterDatedUpdates {guard : HashMap K (Entry T V)} {updates : List (K × Entry T V)}
    {u : K × Entry T V} (h : u ∈ (filterDatedUpdates R guard updates).1) : u ∈ updates := by
  induction updates with
  | nil => exact h
  | cons kv updates ih =>
    obtain ⟨k, remote⟩ := kv
    rw [filterDatedUpdates] at h
    split at h
    · split at h
      · rcases List.mem_cons.1 h with rfl | h
        · exact List.mem_cons_self
        · exact List.mem_cons_of_mem _ (ih h)
      · split at h <;> exact List.mem_cons_of_mem _ (ih h)
    · rcases List.mem_cons.1 h with rfl | h
      · exact List.mem_cons_self
      · exact List.mem_cons_of_mem _ (ih h)

theorem covers_or_mem_filterDatedUpdates {guard : HashMap K (Entry T V)}
    {updates : List (K × Entry T V)} {k : K} {e : Entry T V} (h : (k, e) ∈ updates) :
    HashMap.Covers Entry.stamp guard k e ∨ (k, e) ∈ (filterDatedUpdates R guard updates).1 := by
  induction updates with
  | nil => cases h
  | cons kv updates ih =>
    obtain ⟨k₀, remote⟩ := kv
    rw [filterDatedUpdates]
    rcases List.mem_cons.1 h with h | h
    · cases h
      split
      · next localV hl =>
        split
        · exact .inr List.mem_cons_self
        · next hn => exact .inl ⟨localV, hl, not_lt.1 hn⟩
      · exact .inr List.mem_cons_self
    · rcases ih h with h | h
      · exact .inl h
      · right
        split
        · split
          · exact List.mem_cons_of_mem _ h
          · split <;> exact h
        · exact List.mem_cons_of_mem _ h

namespace Replica

omit [DecidableEq P] in
theorem mergedEntry_eq_or (r : Replica K V P T) (k : K) (v : Entry T V) :
    r.map.lookup k = some (r.mergedEntry R k v) ∨ r.mergedEntry R k v = v := by
  rw [mergedEntry]
  split
  · next localV hl =>
    rcases R.merge_eq_or localV v with h | h
    · rw [h]
      exact .inl hl
    · exact .inr h
  · exact .inr rfl

omit [DecidableEq P] in
theorem le_mergedEntry (r : Replica K V P T) (k : K) (v : Entry T V) :
    v.stamp ≤ (r.mergedEntry R k v).stamp := by
  rw [mergedEntry]
  split
  · exact R.right_le_merge _ _
  · exact le_rfl

omit [DecidableEq P] in
theorem lookup_le_mergedEntry {r : Replica K V P T} {k : K} {v w : Entry T V}
    (h : r.map.lookup k = some w) : w.stamp ≤ (r.mergedEntry R k v).stamp := by
  rw [mergedEntry, h]
  exact R.left_le_merge _ _

theorem mergeUpdate_grows (r : Replica K V P T) (k : K) (v : Entry T V) :
    HashMap.Grows Entry.stamp r.map (r.mergeUpdate R k v).map :=
  (HashMap.grows_insert_iff r.map k _).2 fun _ hw => lookup_le_mergedEntry R hw

theorem mergeUpdate_covers (r : Replica K V P T) (k : K) (v : Entry T V) :
    HashMap.Covers Entry.stamp (r.mergeUpdate R k v).map k v :=
  (HashMap.covers_insert r.map k _).mono (le_mergedEntry R r k v)

theorem mergeUpdate_sound {r : Replica K V P T} {k k' : K} {v e : Entry T V}
    (h : (r.mergeUpdate R k v).map.lookup k' = some e) :
    r.map.lookup k' = some e ∨ (k', e) = (k, v) := by
  rw [mergeUpdate, mapInsert, HashMap.lookup_insert_eq] at h
  split at h
  · next hk =>
    subst hk
    cases h
    rcases r.mergedEntry_eq_or R k' v with hm | hm
    · exact .inl hm
    · exact .inr (by rw [hm])
  · exact .inl h

/-- The merge loop only moves stamps up, and keeps every key. -/
theorem mergeLoop_grows (r : Replica K V P T) (toApply : List (K × Entry T V)) :
    HashMap.Grows Entry.stamp r.map (r.mergeLoop R toApply).1.map := by
  induction toApply generalizing r with
  | nil => exact .refl _
  | cons kv toApply ih =>
    obtain ⟨k, v⟩ := kv
    exact (r.mergeUpdate_grows R k v).trans (ih (r.mergeUpdate R k v))

theorem mergeLoop_covers {r : Replica K V P T} {toApply : List (K × Entry T V)} {k : K}
    {e : Entry T V} (h : (k, e) ∈ toApply) :
    HashMap.Covers Entry.stamp (r.mergeLoop R toApply).1.map k e := by
  induction toApply generalizing r with
  | nil => cases h
  | cons kv toApply ih =>
    obtain ⟨k₀, v⟩ := kv
    rcases List.mem_cons.1 h with h | h
    · cases h
      exact (r.mergeUpdate_covers R k e).grows (mergeLoop_grows R (r.mergeUpdate R k e) toApply)
    · exact ih h

theorem mergeLoop_sound {r : Replica K V P T} {toApply : List (K × Entry T V)} {k : K}
    {e : Entry T V} (h : (r.mergeLoop R toApply).1.map.lookup k = some e) :
    r.map.lookup k = some e ∨ (k, e) ∈ toApply := by
  induction toApply generalizing r with
  | nil => exact .inl h
  | cons kv toApply ih =>
    obtain ⟨k₀, v⟩ := kv
    rcases ih h with h | h
    · rcases mergeUpdate_sound R h with h | h
      · exact .inl h
      · rw [h]
        exact .inr List.mem_cons_self
    · exact .inr (List.mem_cons_of_mem _ h)

theorem Mirrored.mergeLoop {r : Replica K V P T} (h : r.Mirrored) (toApply : List (K × Entry T V)) :
    (r.mergeLoop R toApply).1.Mirrored := by
  induction toApply generalizing r with
  | nil => exact h
  | cons kv toApply ih =>
    have hr : (r.reportCollision R kv.1 kv.2).Mirrored := ⟨h.projection, h.tombstones⟩
    exact ih (hr.mapInsert kv.1 (r.mergedEntry R kv.1 kv.2))

end Replica

end Reconcile
