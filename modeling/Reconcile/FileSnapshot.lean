import Reconcile.Storage

namespace Reconcile
open Lib
set_option autoImplicit true

def maxCommittedDeltas : Nat := 512

def Manifest.deltaCount (m : Manifest) : Nat := m.currentGeneration - m.baseGeneration

def shouldMaterialize (m : Manifest) (candidateDeltaBytes : Nat) : Bool :=
  m.deltaCount ≥ maxCommittedDeltas ||
    saturatingAdd m.deltaBytes candidateDeltaBytes ≥ m.baseBytes

variable {K V P T : Type}

/-- A signed store refuses to run over a single-file snapshot, which it cannot have written. -/
def refuseIncompatible (C : Codec K V P T) (err : IoError) : Fs Unit := do
  if C.version = formatVersion then return ()
  else
    match ← Fs.pathExists .snapshot with
    | true => throw err
    | false => return ()

def materialize (C : Codec K V P T) (state : PersistedState K V P T) (generation : Nat) :
    Fs Unit := do
  Fs.effect .createDirAll
  let baseBytes ← writeSegmentVersion C C.base baseMagic .base generation ⟨generation, state⟩
  publishManifestVersion C ⟨generation, baseBytes, generation, 0⟩
  ExceptT.lift (cleanupAfterFullMaterialization generation)

def saveFullFor (C : Codec K V P T) (state : PersistedState K V P T) : Fs Unit := do
  match ← readManifestVersion C with
  | none => do
    refuseIncompatible C .incompatibleOverwrite
    materialize C state 1
  | some manifest => materialize C state (saturatingAdd manifest.currentGeneration 1)

def appendDelta (C : Codec K V P T) (manifest : Manifest) (delta : PersistenceDelta K V P T) :
    Fs Bool := do
  let toGeneration := saturatingAdd manifest.currentGeneration 1
  let encoded ← Fs.ofExcept (encodeVersion C.hash C.delta deltaMagic
    ⟨manifest.currentGeneration, toGeneration, delta⟩ C.version)
  if shouldMaterialize manifest encoded.length then return false
  else
    let bytes ← writeEncodedSegment .delta toGeneration encoded
    publishManifestVersion C { manifest with
      currentGeneration := toGeneration
      deltaBytes := saturatingAdd manifest.deltaBytes bytes }
    return true

def trySaveDeltaFor (C : Codec K V P T) (delta : Option (PersistenceDelta K V P T)) :
    Fs Bool := do
  match ← readManifestVersion C with
  | none => do
    refuseIncompatible C .incompatibleReset
    return false
  | some manifest =>
    match delta with
    | none => return true
    | some delta => appendDelta C manifest delta

/-- The single-file snapshot: a header without a checksum, then the body. -/
def decodeSnapshotFor (C : Codec K V P T) (bytes : Bytes) :
    Except IoError (PersistedState K V P T) :=
  if bytes.length < headerLen then .error (.shortSnapshot bytes.length)
  else if bytes.take 4 ≠ snapshotMagic then .error (.wrongSnapshotMagic (bytes.take 4))
  else
    let version := fromLeBytes ((bytes.drop 4).take 4)
    if version ≠ C.version then
      .error (.unsupportedSnapshotVersion version.toNat C.version.toNat)
    else
      match C.snapshot.deserialize (bytes.drop headerLen) with
      | some state => .ok state
      | none => .error .undecodable

def loadSnapshot (C : Codec K V P T) : Fs (Option (PersistedState K V P T)) := do
  match ← (Fs.read .snapshot).attempt with
  | .ok bytes =>
    let state ← Fs.ofExcept (decodeSnapshotFor C bytes)
    return some state
  | .error err => if err.kind = .notFound then return none else throw err

variable [LinearOrder K] [DecidableEq P]

def recoverDeltas (C : Codec K V P T) :
    List Nat → CausalState K V P T → Nat → Fs (CausalState K V P T × Nat)
  | [], state, observed => pure (state, observed)
  | generation :: generations, state, observed => do
    let bytes ← readSegmentBytes .delta generation none
    let segment ← Fs.ofExcept (decodeVersion C.hash C.delta deltaMagic C.version bytes)
    let expectedFrom := generation - 1
    if segment.fromGeneration ≠ expectedFrom ∨ segment.toGeneration ≠ generation then
      throw (.deltaContinuity expectedFrom generation segment.fromGeneration segment.toGeneration)
    else
      recoverDeltas C generations (applyDelta state segment.delta)
        (saturatingAdd observed bytes.length)

def recoverManifest (C : Codec K V P T) (manifest : Manifest) : Fs (PersistedState K V P T) := do
  let baseBytes ← readSegmentBytes .base manifest.baseGeneration (some manifest.baseBytes)
  let base ← Fs.ofExcept (decodeVersion C.hash C.base baseMagic C.version baseBytes)
  if base.generation ≠ manifest.baseGeneration then
    throw (.baseGeneration base.generation manifest.baseGeneration)
  else if manifest.currentGeneration = manifest.baseGeneration then
    return base.state
  else
    let first := saturatingAdd manifest.baseGeneration 1
    let generations := List.range' first (manifest.currentGeneration + 1 - first)
    let (state, observed) ← recoverDeltas C generations base.state.toCausal 0
    if observed ≠ manifest.deltaBytes then
      throw (.deltaBytes manifest.deltaBytes observed)
    else return state.toPersisted

def loadFor (C : Codec K V P T) : Fs (Option (PersistedState K V P T)) := do
  match ← readManifestVersion C with
  | none => return none
  | some manifest =>
    let state ← recoverManifest C manifest
    return some state

def load (C : Codec K V P T) : Fs (Option (PersistedState K V P T)) := do
  match ← loadFor C with
  | some state => return some state
  | none => loadSnapshot C

end Reconcile
