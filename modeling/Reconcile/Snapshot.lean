import Reconcile.Coherence
import Reconcile.SaveSpec

namespace Reconcile
open Lib
set_option autoImplicit true

variable {K V P T : Type} [LinearOrder K] [DecidableEq P]

inductive MemOp where
  | freeze
  | capture
  | commit (generationId : Nat)

@[reducible] def MemOp.Ans (K V P T : Type) : MemOp → Type
  | .freeze => Option (SnapshotGeneration K V P T)
  | .capture => PersistedState K V P T
  | .commit _ => Bool

/-- The runtime state and its tracker, with the transactions made so far as history. -/
structure Memory (K V P T : Type) where
  live : CausalState K V P T
  tracker : GenerationState K V P T
  log : List (Transaction K V P T) := []

def Memory.transact (m : Memory K V P T) (tx : Transaction K V P T) : Memory K V P T where
  live := m.live.transact tx
  tracker := m.tracker.transact tx
  log := m.log ++ [tx]

abbrev SysOp : Type := FsOp ⊕ MemOp

abbrev SysOp.Ans (K V P T : Type) : SysOp → Type := Sum.elim FsOp.Ans (MemOp.Ans K V P T)

def Memory.exec (r : Runtime) (m : Memory K V P T) :
    (o : MemOp) → MemOp.Ans K V P T o × Memory K V P T
  | .freeze => (m.tracker.freeze.1, { m with tracker := m.tracker.freeze.2 })
  | .capture => (r.capture m.live, m)
  | .commit id => ((m.tracker.commit id).1, { m with tracker := (m.tracker.commit id).2 })

def runtime (r : Runtime) :
    Handler SysOp (SysOp.Ans K V P T) (Disk × Memory K V P T) Decision where
  exec
    | .inl o, e, (d, m) => ((fileSystem.exec o e d).1, (fileSystem.exec o e d).2, m)
    | .inr o, _, (d, m) => ((m.exec r o).1, d, (m.exec r o).2)

/-- Writers of the same node may run between any two steps of an attempt. -/
def writers : Rely (Memory K V P T) where
  rel m m' := ∃ txs : List (Transaction K V P T), m' = txs.foldl Memory.transact m
  refl m := ⟨[], rfl⟩
  trans := by
    rintro m _ _ ⟨txs, rfl⟩ ⟨txs', rfl⟩
    exact ⟨txs ++ txs', (List.foldl_append ..).symm⟩

inductive SnapshotResult where
  | ok
  | err (e : IoError)
  | panicked
  deriving DecidableEq, Repr

abbrev SysProg (K V P T : Type) : Type := Prog SysOp (SysOp.Ans K V P T) SnapshotResult

def retire : Option (SnapshotGeneration K V P T) → SysProg K V P T
  | none => .pure .ok
  | some generation =>
    .call (.inr (.commit generation.id)) fun (committed : Bool) =>
      .pure (if committed then .ok else .panicked)

/-- `snapshot_inner` of the map and `snapshot_now` of the signed replica. -/
def snapshotInner (C : Codec K V P T) : SysProg K V P T :=
  .call (.inr .freeze) fun (frozen : Option (SnapshotGeneration K V P T)) =>
    ((trySaveDeltaFor C (frozen.map (·.persistenceDelta))).run.inl).bind fun
      | .ok true => retire frozen
      | .ok false =>
        .call (.inr .capture) fun (state : PersistedState K V P T) =>
          ((saveFullFor C state).run.inl).bind fun
            | .ok _ => retire frozen
            | .error err => .pure (.err err)
      | .error err => .pure (.err err)

structure Attempting (K V P T : Type) where
  prog : SysProg K V P T
  begun : Disk × Memory K V P T

def Attempting.returned (att : Attempting K V P T) : Option SnapshotResult :=
  match att.prog with
  | .pure res => some res
  | .call _ _ => none

structure Node (K V P T : Type) where
  disk : Disk
  memory : Memory K V P T
  attempt : Option (Attempting K V P T) := none

inductive Event (K V P T : Type) where
  | mutate (tx : Transaction K V P T)
  | snapshotNow
  | advance (e : Decision)

def Node.unlocked (n : Node K V P T) : Bool :=
  match n.attempt with
  | some att => att.returned.isSome
  | none => true

/-- One event. A second `snapshot_now` waits for the lock, and a finished call stays finished. -/
def Node.step (r : Runtime) (C : Codec K V P T) (n : Node K V P T) : Event K V P T → Node K V P T
  | .mutate tx => { n with memory := n.memory.transact tx }
  | .snapshotNow =>
    if n.unlocked then { n with attempt := some ⟨snapshotInner C, (n.disk, n.memory)⟩ } else n
  | .advance e =>
    match n.attempt with
    | none => n
    | some att =>
      let c := Prog.step (runtime r) e (att.prog, (n.disk, n.memory))
      ⟨c.2.1, c.2.2, some ⟨c.1, att.begun⟩⟩

inductive Node.Reachable (r : Runtime) (C : Codec K V P T)
    (allowed : Node K V P T → Event K V P T → Bool) (n₀ : Node K V P T) : Node K V P T → Prop where
  | refl : Reachable r C allowed n₀ n₀
  | step (h : Reachable r C allowed n₀ n) (ev : Event K V P T) (ha : allowed n ev = true) :
    Reachable r C allowed n₀ (n.step r C ev)

def Node.run (r : Runtime) (C : Codec K V P T) (n : Node K V P T) (events : List (Event K V P T)) :
    Node K V P T := events.foldl (Node.step r C) n

def Node.allows (r : Runtime) (C : Codec K V P T) (allowed : Node K V P T → Event K V P T → Bool) :
    Node K V P T → List (Event K V P T) → Bool
  | _, [] => true
  | n, ev :: events => allowed n ev && allows r C allowed (n.step r C ev) events

theorem Node.Reachable.run {r : Runtime} {C : Codec K V P T}
    {allowed : Node K V P T → Event K V P T → Bool} {n₀ n : Node K V P T}
    (h : Reachable r C allowed n₀ n) (events : List (Event K V P T))
    (ha : n.allows r C allowed events = true) : Reachable r C allowed n₀ (n.run r C events) := by
  induction events generalizing n with
  | nil => exact h
  | cons ev events ih =>
    rw [allows, Bool.and_eq_true] at ha
    exact ih (h.step ev ha.1) ha.2

/-- A node whose live state is what its store holds, with nothing recorded yet. -/
structure Node.Restored (C : Codec K V P T) (n : Node K V P T) : Prop where
  stored : ∃ A g, StoreAt C n.disk A g ∧ n.memory.live.view = A.view
  clean : n.memory.tracker.Clean
  log : n.memory.log = []
  attempt : n.attempt = none

def generationOf (C : Codec K V P T) (d : Disk) : Nat :=
  match (readManifestVersion C).quiet d with
  | (.ok (some m), _) => m.currentGeneration
  | _ => 0

def fullPublished (C : Codec K V P T) (d : Disk) : Bool :=
  match (readManifestVersion C).quiet d with
  | (.ok (some m), _) => m.baseGeneration = m.currentGeneration
  | _ => false

def Node.room (C : Codec K V P T) (n : Node K V P T) : Event K V P T → Bool
  | .snapshotNow => generationOf C n.disk < u64Max
  | _ => true

def Attempting.syncsManifest (att : Attempting K V P T) : Bool :=
  match att.prog with
  | .call (.inl (.effect (.syncParent .manifest))) _ => true
  | _ => false

/-- The directory sync after the manifest rename of a full save does not fail while a frozen
generation is pending. -/
def Node.syncKept (C : Codec K V P T) (n : Node K V P T) : Event K V P T → Bool
  | .advance (.fail _) =>
    match n.attempt with
    | some att =>
      !(att.syncsManifest && fullPublished C n.disk) || n.memory.tracker.frozen.isNone
    | none => true
  | _ => true

end Reconcile
