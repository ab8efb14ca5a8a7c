import Reconcile.Journal
import Reconcile.Lib.Program

namespace Reconcile
open Lib
set_option autoImplicit true

abbrev Bytes : Type := List UInt8

inductive SegmentKind where
  | base
  | delta
  deriving DecidableEq, Repr

/-- The files of one backend: its store directory and the configured single-file path. -/
inductive FileName where
  | manifest
  | segment (kind : SegmentKind) (generation : Nat)
  | snapshot
  | tmp (name : FileName)
  deriving DecidableEq, Repr

def SegmentKind.text : SegmentKind → String
  | .base => "base"
  | .delta => "delta"

def segmentFileName (kind : SegmentKind) (generation : Nat) : String :=
  let digits := toString generation
  kind.text ++ "-" ++ "".pushn '0' (20 - digits.length) ++ digits ++ ".bin"

/-- Names that start with `base-` or `delta-`, temporary files included. -/
def FileName.isSegment : FileName → Bool
  | .segment _ _ => true
  | .tmp name => name.isSegment
  | _ => false

inductive ErrorKind where
  | notFound
  | invalidData
  | other
  deriving DecidableEq, Repr

inductive IoError where
  | injected
  | notFound
  | unserializable
  | undecodable
  | shortObject (length : Nat)
  | wrongMagic (found expected : Bytes)
  | unsupportedVersion (found expected : Nat)
  | checksumMismatch
  | manifestGenerations
  | manifestBaseBytes
  | manifestStrayDeltaBytes
  | manifestMissingDeltaBytes
  | segmentMissing (file : String)
  | segmentLength (file : String) (found expected : Nat)
  | baseGeneration (found expected : Nat)
  | deltaContinuity (expectedFrom generation foundFrom foundTo : Nat)
  | deltaBytes (recorded recovered : Nat)
  | incompatibleOverwrite
  | incompatibleReset
  | shortSnapshot (length : Nat)
  | wrongSnapshotMagic (found : Bytes)
  | unsupportedSnapshotVersion (found expected : Nat)
  deriving DecidableEq, Repr

/-- Everything the store itself rejects is `InvalidData`. -/
def IoError.kind : IoError → ErrorKind
  | .injected => .other
  | .notFound => .notFound
  | _ => .invalidData

structure File where
  bytes : Bytes
  synced : Bool
  deriving DecidableEq, Repr

abbrev Disk : Type := FileName → Option File

inductive Effect where
  | createDirAll
  | create (name : FileName)
  | writeAll (name : FileName) (bytes : Bytes)
  | syncAll (name : FileName)
  | rename (source target : FileName)
  | syncParent (name : FileName)
  | removeFile (name : FileName)
  | syncDir

inductive FsOp where
  | read (name : FileName)
  | pathExists (name : FileName)
  | readDir
  | effect (o : Effect)

@[reducible] def FsOp.Ans : FsOp → Type
  | .read _ => Except IoError Bytes
  | .pathExists _ => Bool
  | .readDir => Except IoError (List FileName)
  | .effect _ => Except IoError Unit

/-- The environment lets a call take effect, or fails it. A failed write may have stored a
leading part. A directory listing has an arbitrary order and may miss unreadable entries. -/
inductive Decision where
  | succeed (listing : List FileName)
  | fail (written : Nat)

def Disk.append (d : Disk) (name : FileName) (bytes : Bytes) : Disk :=
  match d name with
  | some f => Function.update d name (some ⟨f.bytes ++ bytes, false⟩)
  | none => d

/-- The disk after a call took effect; `none` when the file it names is not there. -/
def Effect.apply (d : Disk) : Effect → Option Disk
  | .createDirAll => some d
  | .create name => some (Function.update d name (some ⟨[], false⟩))
  | .writeAll name bytes => some (d.append name bytes)
  | .syncAll name =>
    some (Function.update d name ((d name).map fun f => { f with synced := true }))
  | .rename source target =>
    (d source).map fun f => Function.update (Function.update d source none) target (some f)
  | .syncParent _ => some d
  | .removeFile name => (d name).map fun _ => Function.update d name none
  | .syncDir => some d

def Effect.interrupt (d : Disk) (written : Nat) : Effect → Disk
  | .writeAll name bytes => d.append name (bytes.take written)
  | _ => d

def fileSystem : Handler FsOp FsOp.Ans Disk Decision where
  exec
    | .read name, .succeed _, d =>
      (match d name with
        | some f => .ok f.bytes
        | none => .error .notFound, d)
    | .read _, .fail _, d => (.error .injected, d)
    | .pathExists name, .succeed _, d => ((d name).isSome, d)
    | .pathExists _, .fail _, d => (false, d)
    | .readDir, .succeed listing, d => (.ok listing, d)
    | .readDir, .fail _, d => (.error .injected, d)
    | .effect o, .succeed _, d =>
      match o.apply d with
      | some d' => (.ok (), d')
      | none => (.error .notFound, d)
    | .effect o, .fail written, d => (.error .injected, o.interrupt d written)

/-- A crash keeps synced files; whatever else was written may be torn or gone. -/
def Disk.crash (torn : FileName → Option Bytes) (d : Disk) : Disk := fun name =>
  match d name with
  | some f => if f.synced then some f else (torn name).map (⟨·, false⟩)
  | none => none

abbrev Fs (α : Type) : Type := ExceptT IoError (Prog FsOp FsOp.Ans) α

def Fs.read (name : FileName) : Fs Bytes := ExceptT.mk (Prog.perform (FsOp.read name))

def Fs.effect (o : Effect) : Fs Unit := ExceptT.mk (Prog.perform (FsOp.effect o))

def Fs.pathExists (name : FileName) : Fs Bool :=
  ExceptT.lift (Prog.perform (FsOp.pathExists name) : Prog FsOp FsOp.Ans Bool)

def Fs.attempt (x : Fs α) : Fs (Except IoError α) := ExceptT.lift x.run

def Fs.ofExcept : Except IoError α → Fs α
  | .ok a => pure a
  | .error e => throw e

/-- `bincode` for one type: what it serializes, it reads back. -/
structure Bincode (α : Type) where
  serialize : α → Option Bytes
  deserialize : Bytes → Option α
  roundtrip : ∀ a bytes, serialize a = some bytes → deserialize bytes = some a

structure Manifest where
  baseGeneration : Nat
  baseBytes : Nat
  currentGeneration : Nat
  deltaBytes : Nat
  deriving DecidableEq, Repr

structure BaseSegment (K V P T : Type) where
  generation : Nat
  state : PersistedState K V P T

structure DeltaSegment (K V P T : Type) where
  fromGeneration : Nat
  toGeneration : Nat
  delta : PersistenceDelta K V P T

def headerLen : Nat := 8

def objectChecksumLen : Nat := 32

def formatVersion : UInt32 := 1

def peerIdFormatVersion : UInt32 := 2

structure Codec (K V P T : Type) where
  version : UInt32
  manifest : Bincode Manifest
  base : Bincode (BaseSegment K V P T)
  delta : Bincode (DeltaSegment K V P T)
  snapshot : Bincode (PersistedState K V P T)
  hash : Bytes → Bytes
  hash_length : ∀ bytes, (hash bytes).length = objectChecksumLen

def baseMagic : Bytes := [0x52, 0x43, 0x4E, 0x42]

def deltaMagic : Bytes := [0x52, 0x43, 0x4E, 0x44]

def manifestMagic : Bytes := [0x52, 0x43, 0x4E, 0x4D]

def snapshotMagic : Bytes := [0x52, 0x43, 0x4E, 0x4C]

def toLeBytes (v : UInt32) : Bytes :=
  [.ofNat v.toNat, .ofNat (v.toNat / 2 ^ 8), .ofNat (v.toNat / 2 ^ 16), .ofNat (v.toNat / 2 ^ 24)]

def fromLeBytes : Bytes → UInt32
  | [a, b, c, d] =>
    .ofNat (a.toNat + b.toNat * 2 ^ 8 + c.toNat * 2 ^ 16 + d.toNat * 2 ^ 24)
  | _ => 0

theorem fromLeBytes_toLeBytes (v : UInt32) : fromLeBytes (toLeBytes v) = v := by
  apply UInt32.toNat_inj.1
  have h := v.toNat_lt
  simp only [fromLeBytes, toLeBytes, UInt32.toNat_ofNat', UInt8.toNat_ofNat']
  omega

def encodeVersion (hash : Bytes → Bytes) (codec : Bincode α) (magic : Bytes) (value : α)
    (version : UInt32) : Except IoError Bytes :=
  match codec.serialize value with
  | none => .error .unserializable
  | some body => .ok (magic ++ toLeBytes version ++ body ++ hash body)

def decodeVersion (hash : Bytes → Bytes) (codec : Bincode α) (expectedMagic : Bytes)
    (expectedVersion : UInt32) (bytes : Bytes) : Except IoError α :=
  if bytes.length < headerLen + objectChecksumLen then .error (.shortObject bytes.length)
  else if bytes.take 4 ≠ expectedMagic then .error (.wrongMagic (bytes.take 4) expectedMagic)
  else
    let version := fromLeBytes ((bytes.drop 4).take 4)
    if version ≠ expectedVersion then
      .error (.unsupportedVersion version.toNat expectedVersion.toNat)
    else
      let checksumOffset := bytes.length - objectChecksumLen
      let body := (bytes.take checksumOffset).drop headerLen
      if hash body ≠ bytes.drop checksumOffset then .error .checksumMismatch
      else
        match codec.deserialize body with
        | some value => .ok value
        | none => .error .undecodable

theorem decodeVersion_encodeVersion {hash : Bytes → Bytes} {codec : Bincode α} {magic bytes : Bytes}
    {value : α} {version : UInt32} (hm : magic.length = 4)
    (hh : ∀ bytes, (hash bytes).length = objectChecksumLen)
    (he : encodeVersion hash codec magic value version = .ok bytes) :
    decodeVersion hash codec magic version bytes = .ok value := by
  unfold encodeVersion at he
  cases hs : codec.serialize value with
  | none => rw [hs] at he; cases he
  | some body =>
    rw [hs] at he
    simp only [Except.ok.injEq] at he
    have hb := hh body
    have hv : (toLeBytes version).length = 4 := rfl
    have hlen : bytes.length = 4 + 4 + body.length + objectChecksumLen := by
      rw [← he]
      simp only [List.length_append, hm, hv, hb]
    have h₁ : bytes.take 4 = magic := by
      rw [← he, List.append_assoc, List.append_assoc, ← hm, List.take_left]
    have h₂ : (bytes.drop 4).take 4 = toLeBytes version := by
      rw [← he, List.append_assoc, List.append_assoc, ← hm, List.drop_left, hm, ← hv,
        List.take_left]
    have h₃ : (bytes.take (bytes.length - objectChecksumLen)).drop headerLen = body := by
      have hl : bytes.length - objectChecksumLen = (magic ++ toLeBytes version ++ body).length := by
        simp only [hlen, List.length_append, hm, hv]
        omega
      have hd : headerLen = (magic ++ toLeBytes version).length := by
        simp only [List.length_append, hm, hv, headerLen]
      rw [hl, ← he, List.take_left, hd, List.drop_left]
    have h₄ : bytes.drop (bytes.length - objectChecksumLen) = hash body := by
      have hl : bytes.length - objectChecksumLen = (magic ++ toLeBytes version ++ body).length := by
        simp only [hlen, List.length_append, hm, hv]
        omega
      rw [hl, ← he, List.drop_left]
    have hshort : ¬bytes.length < headerLen + objectChecksumLen := by
      simp only [hlen, headerLen]
      omega
    unfold decodeVersion
    rw [if_neg hshort, h₁, if_neg (not_not.2 rfl)]
    simp only [h₂, fromLeBytes_toLeBytes, h₃, h₄, codec.roundtrip value body hs, ne_eq,
      not_true_eq_false, ↓reduceIte]

def writeAtomic (path : FileName) (bytes : Bytes) : Fs Unit := do
  Fs.effect .createDirAll
  Fs.effect (.create (.tmp path))
  Fs.effect (.writeAll (.tmp path) bytes)
  Fs.effect (.syncAll (.tmp path))
  Fs.effect (.rename (.tmp path) path)
  Fs.effect (.syncParent path)

def validateManifest (m : Manifest) : Except IoError Unit :=
  if m.baseGeneration = 0 ∨ m.baseGeneration > m.currentGeneration then
    .error .manifestGenerations
  else if m.baseBytes = 0 then .error .manifestBaseBytes
  else if m.baseGeneration = m.currentGeneration ∧ m.deltaBytes ≠ 0 then
    .error .manifestStrayDeltaBytes
  else if m.baseGeneration < m.currentGeneration ∧ m.deltaBytes = 0 then
    .error .manifestMissingDeltaBytes
  else .ok ()

variable {K V P T : Type}

def decodeManifest (C : Codec K V P T) (bytes : Bytes) : Except IoError Manifest := do
  let manifest ← decodeVersion C.hash C.manifest manifestMagic C.version bytes
  validateManifest manifest
  return manifest

def readManifestVersion (C : Codec K V P T) : Fs (Option Manifest) := do
  match ← (Fs.read .manifest).attempt with
  | .ok bytes =>
    let manifest ← Fs.ofExcept (decodeManifest C bytes)
    return some manifest
  | .error err => if err.kind = .notFound then return none else throw err

def readSegmentBytes (kind : SegmentKind) (generation : Nat) (expectedBytes : Option Nat) :
    Fs Bytes := do
  match ← (Fs.read (.segment kind generation)).attempt with
  | .ok bytes =>
    match expectedBytes with
    | none => return bytes
    | some expected =>
      if bytes.length ≠ expected then
        throw (.segmentLength (segmentFileName kind generation) bytes.length expected)
      else return bytes
  | .error err =>
    if err.kind = .notFound then throw (.segmentMissing (segmentFileName kind generation))
    else throw err

def writeEncodedSegment (kind : SegmentKind) (generation : Nat) (bytes : Bytes) : Fs Nat := do
  writeAtomic (.segment kind generation) bytes
  return bytes.length

def writeSegmentVersion (C : Codec K V P T) (codec : Bincode α) (magic : Bytes)
    (kind : SegmentKind) (generation : Nat) (value : α) : Fs Nat := do
  let bytes ← Fs.ofExcept (encodeVersion C.hash codec magic value C.version)
  writeEncodedSegment kind generation bytes

def publishManifestVersion (C : Codec K V P T) (manifest : Manifest) : Fs Unit := do
  Fs.ofExcept (validateManifest manifest)
  let bytes ← Fs.ofExcept (encodeVersion C.hash C.manifest manifestMagic manifest C.version)
  writeAtomic .manifest bytes

def removeObsolete (keepBaseGeneration : Nat) : List FileName → Prog FsOp FsOp.Ans Unit
  | [] => .pure ()
  | name :: names =>
    if name = .manifest ∨ name = .segment .base keepBaseGeneration ∨ !name.isSegment then
      removeObsolete keepBaseGeneration names
    else
      .call (.effect (.removeFile name)) fun _ => removeObsolete keepBaseGeneration names

/-- Cleanup is best effort: failures are counted and ignored. -/
def cleanupAfterFullMaterialization (keepBaseGeneration : Nat) : Prog FsOp FsOp.Ans Unit :=
  .call .readDir fun listing =>
    (removeObsolete keepBaseGeneration (match listing with
      | .ok names => names
      | .error _ => [])).bind fun _ =>
    .call (.effect (.removeFile .snapshot)) fun _ =>
    .call (.effect .syncDir) fun _ => .pure ()

end Reconcile
