import Mathlib.Data.List.Sort
import Reconcile.Generation

namespace Reconcile
open Lib
set_option autoImplicit true

structure CausalState (K V P T : Type) where
  entries : HashMap K (Entry T V) := ∅
  members : HashSet P := ∅
  tombstoneAcks : HashMap K (HashMap P Nat) := ∅

structure PersistedState (K V P T : Type) where
  entries : List (K × Entry T V)
  members : HashSet P
  tombstoneAcks : HashMap K (HashMap P Nat)

variable {K V P T : Type} [DecidableEq K] [DecidableEq P]

def PersistedState.toCausal (s : PersistedState K V P T) : CausalState K V P T where
  entries := HashMap.ofList s.entries
  members := s.members
  tombstoneAcks := s.tombstoneAcks

def CausalState.view (s : CausalState K V P T) : View K V P T
  | .entry k => s.entries.lookup k
  | .member p => (s.members.lookup p).isSome
  | .ack k p => (s.tombstoneAcks.lookup k).bind (·.lookup p)

def PersistedState.view (s : PersistedState K V P T) : View K V P T := s.toCausal.view

/-- Equal entries, members and acks, up to empty per-key ack maps. -/
structure CausalState.Same (s t : CausalState K V P T) : Prop where
  entries : ∀ k, s.entries.lookup k = t.entries.lookup k
  members : ∀ p, p ∈ s.members ↔ p ∈ t.members
  acks : ∀ k p, (s.tombstoneAcks.lookup k).bind (·.lookup p) =
    (t.tombstoneAcks.lookup k).bind (·.lookup p)

theorem CausalState.same_iff (s t : CausalState K V P T) : s.Same t ↔ s.view = t.view := by
  constructor
  · intro h
    funext c
    cases c with
    | entry k => exact h.entries k
    | member p =>
      have hp := h.members p
      rw [← AList.lookup_isSome, ← AList.lookup_isSome] at hp
      exact Bool.eq_iff_iff.2 hp
    | ack k p => exact h.acks k p
  · intro h
    refine ⟨fun k => congrFun h (.entry k), ?_, fun k p => congrFun h (.ack k p)⟩
    intro p
    rw [← AList.lookup_isSome, ← AList.lookup_isSome]
    exact Bool.eq_iff_iff.1 (congrFun h (.member p))

/-- The runtime effect of the write that a `record_*` call journals. -/
def CausalState.mutate (s : CausalState K V P T) : Mutation K V P T → CausalState K V P T
  | .entry key e => { s with entries := s.entries.insert key e }
  | .physicalDelete key => { s with entries := s.entries.erase key }
  | .member peer true => { s with members := s.members.insert peer () }
  | .member peer false => { s with members := s.members.erase peer }
  | .ack key peer (some version) =>
    { s with
      tombstoneAcks := s.tombstoneAcks.insert key
        (((s.tombstoneAcks.lookup key).getD ∅).insert peer version) }
  | .ack key peer none =>
    match s.tombstoneAcks.lookup key with
    | some acks => { s with tombstoneAcks := s.tombstoneAcks.insert key (acks.erase peer) }
    | none => s
  | .ackKeyClear key => { s with tombstoneAcks := s.tombstoneAcks.erase key }

theorem CausalState.view_mutate (s : CausalState K V P T) (m : Mutation K V P T) :
    (s.mutate m).view = m.patch.apply s.view := by
  funext c
  cases m with
  | entry key e =>
    cases c with
    | entry k =>
      simp only [mutate, view, Overlay.apply, Mutation.patch, HashMap.lookup_insert_eq]
      split <;> rfl
    | member p => rfl
    | ack k p => rfl
  | physicalDelete key =>
    cases c with
    | entry k =>
      simp only [mutate, view, Overlay.apply, Mutation.patch, HashMap.lookup_erase_eq]
      split <;> rfl
    | member p => rfl
    | ack k p => rfl
  | member peer b =>
    cases c with
    | entry k => cases b <;> rfl
    | member p =>
      cases b with
      | false =>
        simp only [mutate, view, Overlay.apply, Mutation.patch, HashMap.lookup_erase_eq]
        split <;> rfl
      | true =>
        simp only [mutate, view, Overlay.apply, Mutation.patch, HashMap.lookup_insert_eq]
        split <;> rfl
    | ack k p => cases b <;> rfl
  | ack key peer version =>
    cases version with
    | some v =>
      cases c with
      | entry k => rfl
      | member p => rfl
      | ack k p =>
        simp only [mutate, view, Overlay.apply, Mutation.patch, HashMap.lookup_insert_eq]
        by_cases hk : k = key
        · subst k
          simp only [↓reduceIte, Option.bind_some, HashMap.lookup_insert_eq, true_and]
          by_cases hp : p = peer
          · simp only [if_pos hp, Option.getD_some]
          · simp only [if_neg hp, Option.getD_none]
            cases s.tombstoneAcks.lookup key <;> rfl
        · simp only [hk, ↓reduceIte, false_and, Option.getD_none]
    | none =>
      simp only [mutate]
      cases h : s.tombstoneAcks.lookup key with
      | none =>
        cases c with
        | entry k => rfl
        | member p => rfl
        | ack k p =>
          simp only [view, Overlay.apply, Mutation.patch]
          split
          · next hc => rw [hc.1, h]; rfl
          · rfl
      | some acks =>
        cases c with
        | entry k => rfl
        | member p => rfl
        | ack k p =>
          simp only [view, Overlay.apply, Mutation.patch, HashMap.lookup_insert_eq]
          by_cases hk : k = key
          · subst k
            simp only [↓reduceIte, Option.bind_some, HashMap.lookup_erase_eq, true_and, h]
            split <;> rfl
          · simp only [hk, ↓reduceIte, false_and, Option.getD_none]
  | ackKeyClear key =>
    cases c with
    | entry k => rfl
    | member p => rfl
    | ack k p =>
      simp only [mutate, view, Overlay.apply, Mutation.patch, HashMap.lookup_erase_eq]
      split <;> rfl

def applyAckPeers (acks : HashMap K (HashMap P Nat)) (key : K) (peerOps : HashMap P (Option Nat)) :
    HashMap K (HashMap P Nat) :=
  match acks.lookup key with
  | some occupied =>
    let occupied := peerOps.foldl (fun m peer version =>
      match version with
      | some version => m.insert peer version
      | none => m.erase peer) occupied
    if occupied.entries.isEmpty then acks.erase key else acks.insert key occupied
  | none =>
    let fresh : HashMap P Nat := peerOps.foldl (fun m peer version =>
      match version with
      | some version => m.insert peer version
      | none => m) ∅
    if fresh.entries.isEmpty then acks else acks.insert key fresh

def applyDelta (s : CausalState K V P T) (delta : PersistenceDelta K V P T) :
    CausalState K V P T where
  entries := delta.entries.foldl (fun m key entry =>
    match entry with
    | some entry => m.insert key entry
    | none => m.erase key) s.entries
  members := delta.members.foldl (fun m peer present =>
    if present then m.insert peer () else m.erase peer) s.members
  tombstoneAcks := delta.ackPeers.foldl applyAckPeers
    (delta.ackKeyClears.foldl (fun m key _ => m.erase key) s.tombstoneAcks)

theorem lookup_of_isEmpty {m : HashMap K V} (h : m.entries.isEmpty) (k : K) :
    m.lookup k = none := by
  have he : m = ∅ := AList.ext (List.isEmpty_iff.1 h)
  rw [he]
  exact AList.lookup_empty k

theorem lookup_foldl_occupied (ops : HashMap P (Option Nat)) (m : HashMap P Nat) (p : P) :
    (ops.foldl (fun m peer version =>
      match version with
      | some version => m.insert peer version
      | none => m.erase peer) m).lookup p = (ops.lookup p).getD (m.lookup p) := by
  rw [HashMap.lookup_foldl _ (fun _ version _ => version)]
  · cases ops.lookup p <;> rfl
  · intro acc k version k'
    cases version with
    | some v => exact HashMap.lookup_insert_eq _ _ _ _
    | none => exact HashMap.lookup_erase_eq _ _ _

theorem lookup_foldl_vacant (ops : HashMap P (Option Nat)) (p : P) :
    (ops.foldl (fun m peer version =>
      match version with
      | some version => m.insert peer version
      | none => m) (∅ : HashMap P Nat)).lookup p = (ops.lookup p).getD none := by
  rw [HashMap.lookup_foldl _ (fun _ version old => version.or old)]
  · cases ops.lookup p with
    | none => rfl
    | some version => cases version <;> rfl
  · intro acc k version k'
    cases version with
    | some v => exact HashMap.lookup_insert_eq _ _ _ _
    | none =>
      change acc.lookup k' = if k' = k then acc.lookup k else acc.lookup k'
      by_cases h : k' = k
      · rw [if_pos h, h]
      · rw [if_neg h]

/-- The inner map left at a key by `apply_delta`'s entry API, empty maps dropped. -/
theorem lookup_applyAckPeers (acks : HashMap K (HashMap P Nat)) (key : K)
    (peerOps : HashMap P (Option Nat)) (k : K) (p : P) :
    ((applyAckPeers acks key peerOps).lookup k).bind (·.lookup p) =
      if k = key then (peerOps.lookup p).getD ((acks.lookup key).bind (·.lookup p))
      else (acks.lookup k).bind (·.lookup p) := by
  simp only [applyAckPeers]
  cases h : acks.lookup key with
  | some occupied =>
    have hl := lookup_foldl_occupied peerOps occupied p
    simp only [Option.bind_some]
    split
    · next he =>
      rw [lookup_of_isEmpty he] at hl
      rw [HashMap.lookup_erase_eq, ← hl]
      split <;> rfl
    · rw [HashMap.lookup_insert_eq, ← hl]
      split <;> rfl
  | none =>
    have hl := lookup_foldl_vacant peerOps p
    simp only [Option.bind_none]
    split
    · next he =>
      rw [lookup_of_isEmpty he] at hl
      rw [← hl]
      split
      · next hk => rw [hk, h]; rfl
      · rfl
    · rw [HashMap.lookup_insert_eq, ← hl]
      split <;> rfl

theorem lookup_applyAckPeers_ne {acks : HashMap K (HashMap P Nat)} {key k : K}
    {peerOps : HashMap P (Option Nat)} (h : k ≠ key) :
    (applyAckPeers acks key peerOps).lookup k = acks.lookup k := by
  simp only [applyAckPeers]
  split <;> split <;>
    simp only [HashMap.lookup_insert_eq, HashMap.lookup_erase_eq, if_neg h]

theorem lookup_foldl_applyAckPeers (ops : HashMap K (HashMap P (Option Nat)))
    (acks : HashMap K (HashMap P Nat)) (k : K) (p : P) :
    ((ops.foldl applyAckPeers acks).lookup k).bind (·.lookup p) =
      (((ops.lookup k).bind (·.lookup p)).getD ((acks.lookup k).bind (·.lookup p))) := by
  rw [HashMap.lookup_foldl _ (fun key peerOps old =>
    (applyAckPeers (match old with | some m => AList.singleton key m | none => ∅) key
      peerOps).lookup key)]
  · cases h : ops.lookup k with
    | none => rfl
    | some peerOps =>
      simp only [lookup_applyAckPeers, ↓reduceIte, Option.bind_some]
      cases acks.lookup k with
      | none => rfl
      | some m =>
        have hs : (AList.singleton k m : HashMap K (HashMap P Nat)).lookup k = some m := by
          rw [← AList.insert_empty, AList.lookup_insert]
        simp only [hs]
  · intro acc key peerOps k'
    by_cases hk : k' = key
    · subst k'
      rw [if_pos rfl]
      cases h : acc.lookup key with
      | none =>
        simp only [applyAckPeers, h, AList.lookup_empty]
        split
        · rw [h, AList.lookup_empty]
        · rw [AList.lookup_insert, AList.lookup_insert]
      | some m =>
        have hs : (AList.singleton key m : HashMap K (HashMap P Nat)).lookup key = some m := by
          rw [← AList.insert_empty, AList.lookup_insert]
        simp only [applyAckPeers, h, hs]
        split
        · rw [AList.lookup_erase, AList.lookup_erase]
        · rw [AList.lookup_insert, AList.lookup_insert]
    · rw [if_neg hk, lookup_applyAckPeers_ne hk]

theorem lookup_foldl_clears (clears : HashSet K) (acks : HashMap K W) (k : K) :
    (clears.foldl (fun m key _ => m.erase key) acks).lookup k =
      if k ∈ clears then none else acks.lookup k := by
  rw [HashMap.lookup_foldl _ (fun _ _ _ => none)]
  · cases h : clears.lookup k with
    | none => rw [if_neg (AList.lookup_eq_none.1 h)]
    | some u => rw [if_pos (AList.lookup_isSome.1 (by rw [h]; rfl))]
  · intro acc key _ k'
    exact HashMap.lookup_erase_eq _ _ _

/-- `apply_delta` writes exactly the cells its delta names. -/
theorem view_applyDelta (s : CausalState K V P T) (delta : PersistenceDelta K V P T) :
    (applyDelta s delta).view = delta.patch.apply s.view := by
  funext c
  cases c with
  | entry k =>
    simp only [applyDelta, CausalState.view, Overlay.apply, PersistenceDelta.patch]
    rw [HashMap.lookup_foldl _ (fun _ entry _ => entry)]
    · cases delta.entries.lookup k <;> rfl
    · intro acc key entry k'
      cases entry with
      | some e => exact HashMap.lookup_insert_eq _ _ _ _
      | none => exact HashMap.lookup_erase_eq _ _ _
  | member p =>
    simp only [applyDelta, CausalState.view, Overlay.apply, PersistenceDelta.patch]
    rw [HashMap.lookup_foldl _ (fun _ present _ => if present then some () else none)]
    · cases delta.members.lookup p with
      | none => rfl
      | some present => cases present <;> rfl
    · intro acc peer present p'
      cases present with
      | true => exact HashMap.lookup_insert_eq _ _ _ _
      | false => exact HashMap.lookup_erase_eq _ _ _
  | ack k p =>
    simp only [applyDelta, CausalState.view, Overlay.apply, PersistenceDelta.patch, ackPatch]
    rw [lookup_foldl_applyAckPeers, lookup_foldl_clears]
    cases (delta.ackPeers.lookup k).bind (·.lookup p) with
    | some version => rfl
    | none =>
      simp only [Option.getD_none]
      split <;> rfl

def Pruned (acks : HashMap K (HashMap P Nat)) : Prop :=
  ∀ k m, acks.lookup k = some m → m.entries.isEmpty = false

theorem Pruned.applyAckPeers {acks : HashMap K (HashMap P Nat)} (h : Pruned acks) (key : K)
    (peerOps : HashMap P (Option Nat)) : Pruned (applyAckPeers acks key peerOps) := by
  intro k m hm
  by_cases hk : k = key
  · subst hk
    unfold Reconcile.applyAckPeers at hm
    split at hm
    · simp only at hm
      split at hm
      · rw [AList.lookup_erase] at hm
        cases hm
      · next hne =>
        rw [AList.lookup_insert] at hm
        cases hm
        exact Bool.eq_false_iff.2 hne
    · simp only at hm
      split at hm
      · exact h k m hm
      · next hne =>
        rw [AList.lookup_insert] at hm
        cases hm
        exact Bool.eq_false_iff.2 hne
  · rw [lookup_applyAckPeers_ne hk] at hm
    exact h k m hm

theorem Pruned.applyDelta {s : CausalState K V P T} (h : Pruned s.tombstoneAcks)
    (delta : PersistenceDelta K V P T) : Pruned (applyDelta s delta).tombstoneAcks := by
  refine HashMap.foldl_invariant Pruned (fun _ key peerOps ha => ha.applyAckPeers key peerOps) _ ?_
  intro k m hm
  rw [lookup_foldl_clears] at hm
  split at hm
  · cases hm
  · exact h k m hm

theorem Pruned.eq_empty {acks : HashMap K (HashMap P Nat)} (h : Pruned acks)
    (hv : ∀ k p, (acks.lookup k).bind (·.lookup p) = none) : acks = ∅ := by
  apply HashMap.eq_empty_of_lookup
  intro k
  cases hk : acks.lookup k with
  | none => rfl
  | some m =>
    have hm : m = ∅ := by
      apply HashMap.eq_empty_of_lookup
      intro p
      have hp := hv k p
      rwa [hk, Option.bind_some] at hp
    have he := h k m hk
    rw [hm] at he
    cases he

end Reconcile
