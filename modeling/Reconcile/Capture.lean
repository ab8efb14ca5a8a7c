import Reconcile.Persistence

namespace Reconcile
open Lib
set_option autoImplicit true

variable {K W V P T : Type} [LinearOrder K] [DecidableEq P]

def rangeAll (m : HashMap K W) : List (K × W) :=
  m.toList.insertionSort (fun a b => a.1 ≤ b.1)

def snapshotChunkSize : Nat := 4096

def nextChunk (guard : List (K × W)) (cursor : Option K) : List (K × W) :=
  match cursor with
  | none => guard.take snapshotChunkSize
  | some last => (guard.filter (fun kv => last < kv.1)).take snapshotChunkSize

def collectLoop (guard : List (K × W)) : Nat → Option K → List (K × W) → List (K × W)
  | 0, _, entries => entries
  | fuel + 1, cursor, entries =>
    match (nextChunk guard cursor).getLast? with
    | none => entries
    | some (lastKey, _) =>
      collectLoop guard fuel (some lastKey) (entries ++ nextChunk guard cursor)

/-- Materialize a pinned root chunk by chunk. -/
def collectEntries (guard : List (K × W)) : List (K × W) :=
  collectLoop guard (guard.length + 1) none []

def CausalState.collectPersistedState (s : CausalState K V P T) : PersistedState K V P T where
  entries := collectEntries (rangeAll s.entries)
  members := s.members
  tombstoneAcks := s.tombstoneAcks

theorem rangeAll_sorted (m : HashMap K W) : (rangeAll m).Pairwise (fun a b => a.1 < b.1) := by
  have hp : (rangeAll m).Perm m.toList := List.perm_insertionSort _ _
  have hn : ((rangeAll m).map Prod.fst).Nodup :=
    (hp.map Prod.fst).nodup_iff.2 m.keys_toList_nodup
  have hs : (rangeAll m).Pairwise (fun a b => a.1 ≤ b.1) := by
    have : Std.Total (fun a b : K × W => a.1 ≤ b.1) := ⟨fun a b => le_total _ _⟩
    have : IsTrans (K × W) (fun a b : K × W => a.1 ≤ b.1) := ⟨fun _ _ _ => le_trans⟩
    exact List.pairwise_insertionSort _ _
  have hd := List.pairwise_map.1 hn
  exact (hs.and hd).imp fun h => lt_of_le_of_ne h.1 h.2

theorem mem_rangeAll (m : HashMap K W) (k : K) (w : W) :
    (k, w) ∈ rangeAll m ↔ m.lookup k = some w := by
  rw [rangeAll, List.mem_insertionSort, HashMap.mem_toList]

/-- Past the last key taken, a sorted guard has exactly what was not taken yet. -/
theorem filter_after_last {taken rest : List (K × W)} {last : K × W}
    (h : (taken ++ rest).Pairwise (fun a b => a.1 < b.1)) (hl : taken.getLast? = some last) :
    (taken ++ rest).filter (fun kv => last.1 < kv.1) = rest := by
  have hmem : last ∈ taken := List.mem_of_getLast? hl
  obtain ⟨ht, hr, hc⟩ := List.pairwise_append.1 h
  rw [List.filter_append]
  have h₁ : taken.filter (fun kv => last.1 < kv.1) = [] := by
    rw [List.filter_eq_nil_iff]
    intro kv hkv
    obtain ⟨pre, rfl⟩ := List.getLast?_eq_some_iff.1 hl
    rcases List.mem_append.1 hkv with hp | hs
    · have hlt := (List.pairwise_append.1 ht).2.2 kv hp last (List.mem_singleton_self _)
      simpa only [decide_eq_true_eq, not_lt] using le_of_lt hlt
    · rw [List.mem_singleton.1 hs]
      simp only [lt_self_iff_false, decide_false, Bool.false_eq_true, not_false_eq_true]
  have h₂ : rest.filter (fun kv => last.1 < kv.1) = rest := by
    rw [List.filter_eq_self]
    intro kv hkv
    exact decide_eq_true (hc last hmem kv hkv)
  rw [h₁, h₂, List.nil_append]

def AtCursor (taken : List (K × W)) (cursor : Option K) : Prop :=
  cursor = taken.getLast?.map Prod.fst

theorem nextChunk_eq {taken rest : List (K × W)} {cursor : Option K}
    (h : (taken ++ rest).Pairwise (fun a b => a.1 < b.1)) (hc : AtCursor taken cursor) :
    nextChunk (taken ++ rest) cursor = rest.take snapshotChunkSize := by
  cases hl : taken.getLast? with
  | none =>
    have ht := List.getLast?_eq_none_iff.1 hl
    rw [AtCursor, hl] at hc
    subst hc ht
    rfl
  | some last =>
    rw [AtCursor, hl] at hc
    subst hc
    simp only [nextChunk, Option.map_some]
    rw [filter_after_last h hl]

theorem collectLoop_eq {taken rest : List (K × W)} {cursor : Option K} (fuel : Nat)
    (h : (taken ++ rest).Pairwise (fun a b => a.1 < b.1)) (hc : AtCursor taken cursor)
    (hf : rest.length < fuel) :
    collectLoop (taken ++ rest) fuel cursor taken = taken ++ rest := by
  induction fuel generalizing taken rest cursor with
  | zero => exact absurd hf (Nat.not_lt_zero _)
  | succ fuel ih =>
    rw [collectLoop, nextChunk_eq h hc]
    cases hl : (rest.take snapshotChunkSize).getLast? with
    | none =>
      have he := List.getLast?_eq_none_iff.1 hl
      have hr : rest = [] := by
        rcases List.take_eq_nil_iff.1 he with h0 | h0
        · exact absurd h0 (by decide)
        · exact h0
      simp only [hr, List.append_nil]
    | some last =>
      obtain ⟨lastKey, lastVal⟩ := last
      have hsplit : taken ++ rest =
          (taken ++ rest.take snapshotChunkSize) ++ rest.drop snapshotChunkSize := by
        rw [List.append_assoc, List.take_append_drop]
      have hpos : 0 < rest.length := by
        rcases Nat.eq_zero_or_pos rest.length with h0 | h0
        · rw [List.length_eq_zero_iff.1 h0] at hl
          exact absurd hl (by simp only [List.take_nil, List.getLast?_nil, reduceCtorEq,
            not_false_eq_true])
        · exact h0
      have hlen : (rest.drop snapshotChunkSize).length < fuel := by
        rw [List.length_drop, snapshotChunkSize]
        omega
      have hcur : AtCursor (taken ++ rest.take snapshotChunkSize) (some lastKey) := by
        rw [AtCursor, List.getLast?_append, hl]
        rfl
      simp only
      rw [hsplit] at h ⊢
      exact ih h hcur hlen

/-- Chunking a pinned root neither drops nor repeats an entry. -/
theorem collectEntries_eq {guard : List (K × W)} (h : guard.Pairwise (fun a b => a.1 < b.1)) :
    collectEntries guard = guard :=
  @collectLoop_eq K W _ [] guard none (guard.length + 1) h rfl (Nat.lt_succ_self _)

theorem CausalState.view_collect (s : CausalState K V P T) :
    s.collectPersistedState.view = s.view := by
  have hs := rangeAll_sorted s.entries
  have hn : ((rangeAll s.entries).map Prod.fst).Nodup :=
    List.pairwise_map.2 (hs.imp fun h => ne_of_lt h)
  funext c
  cases c with
  | entry k =>
    simp only [PersistedState.view, PersistedState.toCausal, collectPersistedState, view,
      collectEntries_eq hs]
    apply Option.ext
    intro e
    rw [HashMap.lookup_ofList _ hn, mem_rangeAll]
  | member p => rfl
  | ack k p => rfl

end Reconcile
