import Reconcile.Entry
import Reconcile.Lib.HashMap
import Reconcile.Lib.Overlay

namespace Reconcile
open Lib
set_option autoImplicit true

/-- `u64::MAX`, also `usize::MAX` on the supported targets. -/
def u64Max : Nat := 2 ^ 64 - 1

def saturatingAdd (a b : Nat) : Nat := min (a + b) u64Max

/-- One durable datum: a key's entry, a peer's membership, or one peer's ack of one key. -/
inductive Cell (K P : Type) where
  | entry (key : K)
  | member (peer : P)
  | ack (key : K) (peer : P)

@[reducible] def Cell.Val (V T : Type) : Cell K P → Type
  | .entry _ => Option (Entry T V)
  | .member _ => Bool
  | .ack _ _ => Option Nat

abbrev View (K V P T : Type) : Type := ∀ c : Cell K P, c.Val V T

abbrev Patch (K V P T : Type) : Type := Overlay (Cell K P) (Cell.Val V T)

inductive EntryDelta (T V : Type) where
  | upsert (entry : Entry T V)
  | physicalDelete
  deriving DecidableEq, Repr

def EntryDelta.toOption : EntryDelta T V → Option (Entry T V)
  | .upsert e => some e
  | .physicalDelete => none

structure SnapshotGeneration (K V P T : Type) where
  id : Nat := 0
  entries : HashMap K (EntryDelta T V) := ∅
  members : HashMap P Bool := ∅
  ackKeyClears : HashSet K := ∅
  ackPeers : HashMap K (HashMap P (Option Nat)) := ∅
  rawChanges : Nat := 0

/-- Coalesced durable effects captured at one snapshot-generation boundary. -/
structure PersistenceDelta (K V P T : Type) where
  entries : HashMap K (Option (Entry T V))
  members : HashMap P Bool
  ackKeyClears : HashSet K
  ackPeers : HashMap K (HashMap P (Option Nat))

/-- The arguments of one `record_*` call on a held mutation guard. -/
inductive Mutation (K V P T : Type) where
  | entry (key : K) (entry : Entry T V)
  | physicalDelete (key : K)
  | member (peer : P) (present : Bool)
  | ack (key : K) (peer : P) (version : Option Nat)
  | ackKeyClear (key : K)

variable {K V P T : Type} [DecidableEq K] [DecidableEq P]

namespace SnapshotGeneration

def isEmpty (g : SnapshotGeneration K V P T) : Bool := g.rawChanges == 0

def persistenceDelta (g : SnapshotGeneration K V P T) : PersistenceDelta K V P T where
  entries := g.entries.foldl (fun acc key delta => acc.insert key delta.toOption) ∅
  members := g.members
  ackKeyClears := g.ackKeyClears
  ackPeers := g.ackPeers

def record (g : SnapshotGeneration K V P T) : Mutation K V P T → SnapshotGeneration K V P T
  | .entry key entry =>
    { g with
      entries := g.entries.insert key (.upsert entry)
      rawChanges := saturatingAdd g.rawChanges 1 }
  | .physicalDelete key =>
    { g with
      entries := g.entries.insert key .physicalDelete
      rawChanges := saturatingAdd g.rawChanges 1 }
  | .member peer present =>
    { g with
      members := g.members.insert peer present
      rawChanges := saturatingAdd g.rawChanges 1 }
  | .ack key peer version =>
    { g with
      ackPeers := g.ackPeers.insert key (((g.ackPeers.lookup key).getD ∅).insert peer version)
      rawChanges := saturatingAdd g.rawChanges 1 }
  | .ackKeyClear key =>
    { g with
      ackKeyClears := g.ackKeyClears.insert key ()
      ackPeers := g.ackPeers.erase key
      rawChanges := saturatingAdd g.rawChanges 1 }

end SnapshotGeneration

/-- The state behind the tracker's mutex. -/
structure GenerationState (K V P T : Type) where
  nextId : Nat := 1
  openGeneration : SnapshotGeneration K V P T := {}
  frozen : Option (SnapshotGeneration K V P T) := none
  trackingEnabled : Bool := true

namespace GenerationState

def freeze (s : GenerationState K V P T) :
    Option (SnapshotGeneration K V P T) × GenerationState K V P T :=
  match s.frozen with
  | some frozen => (some frozen, s)
  | none =>
    if s.openGeneration.isEmpty then (none, s)
    else
      let generation := { s.openGeneration with id := s.nextId }
      (some generation,
        { s with
          nextId := saturatingAdd s.nextId 1
          openGeneration := {}
          frozen := some generation })

def commit (s : GenerationState K V P T) (generationId : Nat) :
    Bool × GenerationState K V P T :=
  if s.frozen.map (·.id) = some generationId then (true, { s with frozen := none })
  else (false, s)

def setTrackingEnabled (s : GenerationState K V P T) (enabled : Bool) : GenerationState K V P T :=
  { s with trackingEnabled := enabled }

def resetClean (s : GenerationState K V P T) : GenerationState K V P T :=
  { s with openGeneration := {}, frozen := none, trackingEnabled := true }

def record (s : GenerationState K V P T) (m : Mutation K V P T) : GenerationState K V P T :=
  if s.trackingEnabled then { s with openGeneration := s.openGeneration.record m } else s

end GenerationState

def Mutation.patch (m : Mutation K V P T) : Patch K V P T
  | .entry k =>
    match m with
    | .entry key e => if k = key then some (some e) else none
    | .physicalDelete key => if k = key then some none else none
    | _ => none
  | .member p =>
    match m with
    | .member peer b => if p = peer then some b else none
    | _ => none
  | .ack k p =>
    match m with
    | .ack key peer version => if k = key ∧ p = peer then some version else none
    | .ackKeyClear key => if k = key then some none else none
    | _ => none

def ackPatch (clears : HashSet K) (peers : HashMap K (HashMap P (Option Nat))) (k : K) (p : P) :
    Option (Option Nat) :=
  match (peers.lookup k).bind (·.lookup p) with
  | some version => some version
  | none => if k ∈ clears then some none else none

def SnapshotGeneration.patch (g : SnapshotGeneration K V P T) : Patch K V P T
  | .entry k => (g.entries.lookup k).map EntryDelta.toOption
  | .member p => g.members.lookup p
  | .ack k p => ackPatch g.ackKeyClears g.ackPeers k p

def PersistenceDelta.patch (d : PersistenceDelta K V P T) : Patch K V P T
  | .entry k => d.entries.lookup k
  | .member p => d.members.lookup p
  | .ack k p => ackPatch d.ackKeyClears d.ackPeers k p

theorem SnapshotGeneration.patch_default :
    ({} : SnapshotGeneration K V P T).patch = Overlay.empty := by
  funext c
  cases c <;> rfl

theorem SnapshotGeneration.patch_id (g : SnapshotGeneration K V P T) (n : Nat) :
    ({ g with id := n } : SnapshotGeneration K V P T).patch = g.patch := by
  funext c
  cases c <;> rfl

theorem ackPatch_insert (clears : HashSet K) (peers : HashMap K (HashMap P (Option Nat)))
    (key : K) (peer : P) (version : Option Nat) (k : K) (p : P) :
    ackPatch clears (peers.insert key (((peers.lookup key).getD ∅).insert peer version)) k p =
      if k = key ∧ p = peer then some version else ackPatch clears peers k p := by
  simp only [ackPatch, HashMap.lookup_insert_eq]
  by_cases hk : k = key
  · subst k
    simp only [↓reduceIte, Option.bind_some, true_and, HashMap.lookup_insert_eq]
    by_cases hp : p = peer
    · simp only [if_pos hp]
    · simp only [if_neg hp]
      cases peers.lookup key <;> rfl
  · simp only [hk, ↓reduceIte, false_and]

theorem ackPatch_clear (clears : HashSet K) (peers : HashMap K (HashMap P (Option Nat)))
    (key k : K) (p : P) :
    ackPatch (clears.insert key ()) (peers.erase key) k p =
      if k = key then some none else ackPatch clears peers k p := by
  simp only [ackPatch, HashMap.lookup_erase_eq, AList.mem_insert]
  by_cases hk : k = key
  · simp only [hk, ↓reduceIte, Option.bind_none, true_or]
  · simp only [hk, ↓reduceIte, false_or]

/-- Coalescing into a generation is sequencing: nothing recorded earlier shows through. -/
theorem SnapshotGeneration.patch_record (g : SnapshotGeneration K V P T)
    (m : Mutation K V P T) : (g.record m).patch = g.patch.followedBy m.patch := by
  funext c
  cases m with
  | entry key entry =>
    cases c with
    | entry k =>
      simp only [record, patch, Overlay.followedBy, Mutation.patch, HashMap.lookup_insert_eq]
      split <;> rfl
    | member p => rfl
    | ack k p => rfl
  | physicalDelete key =>
    cases c with
    | entry k =>
      simp only [record, patch, Overlay.followedBy, Mutation.patch, HashMap.lookup_insert_eq]
      split <;> rfl
    | member p => rfl
    | ack k p => rfl
  | member peer present =>
    cases c with
    | entry k => rfl
    | member p =>
      simp only [record, patch, Overlay.followedBy, Mutation.patch, HashMap.lookup_insert_eq]
      split <;> rfl
    | ack k p => rfl
  | ack key peer version =>
    cases c with
    | entry k => rfl
    | member p => rfl
    | ack k p =>
      simp only [record, patch, Overlay.followedBy, Mutation.patch, ackPatch_insert]
      split <;> rfl
  | ackKeyClear key =>
    cases c with
    | entry k => rfl
    | member p => rfl
    | ack k p =>
      simp only [record, patch, Overlay.followedBy, Mutation.patch, ackPatch_clear]
      split <;> rfl

theorem SnapshotGeneration.patch_persistenceDelta (g : SnapshotGeneration K V P T) :
    g.persistenceDelta.patch = g.patch := by
  funext c
  cases c with
  | entry k =>
    have h := HashMap.lookup_foldl (fun acc key (delta : EntryDelta T V) =>
        acc.insert key delta.toOption) (fun _ delta _ => some delta.toOption)
      (fun acc key delta k' => HashMap.lookup_insert_eq acc key k' delta.toOption) g.entries ∅ k
    simp only [PersistenceDelta.patch, persistenceDelta, patch]
    rw [h]
    cases g.entries.lookup k <;> rfl
  | member p => rfl
  | ack k p => rfl

theorem SnapshotGeneration.record_not_isEmpty (g : SnapshotGeneration K V P T)
    (m : Mutation K V P T) : (g.record m).isEmpty = false := by
  have h : ∀ n, saturatingAdd n 1 ≠ 0 := by
    intro n
    simp only [saturatingAdd, u64Max]
    omega
  cases m <;> simpa only [record, isEmpty, beq_eq_false_iff_ne] using h g.rawChanges

end Reconcile
