import Reconcile.Lib.Fixed
import Reconcile.Lib.Pieces
import Reconcile.Storage

namespace Reconcile
open Lib
set_option autoImplicit true

abbrev TransferId : Type := Fixed 32

def completeTag : UInt8 := 0
def fragmentTag : UInt8 := 1

def completeHeaderLen : Nat := 1

def fragmentHeaderLen : Nat := 41

structure ReassemblyLimits where
  maxLogicalMessageSize : Nat
  maxFragmentsPerMessage : Nat
  maxIncompleteTransfersPerPeer : Nat
  maxReassemblyBytesPerPeer : Nat
  maxTotalReassemblyBytes : Nat
  reassemblyTtl : Nat

/-- The framing policy; durations are in milliseconds. -/
structure FramingConfig where
  datagramPayloadBudget : Nat := 1200
  maxLogicalMessageSize : Nat := 8 * 1024 * 1024
  maxFragmentsPerMessage : Nat := 8192
  maxIncompleteTransfersPerPeer : Nat := 8
  maxReassemblyBytesPerPeer : Nat := 16 * 1024 * 1024
  maxTotalReassemblyBytes : Nat := 64 * 1024 * 1024
  reassemblyTtl : Nat := 90000
  selectiveRecovery : Bool := true
  maxMissingRangesPerReport : Nat := 128
  maxOutboundRecoveryTransfersPerPeer : Nat := 8
  maxTotalOutboundRecoveryTransfers : Nat := 64
  maxOutboundRecoveryBytesPerPeer : Nat := 16 * 1024 * 1024
  maxTotalOutboundRecoveryBytes : Nat := 64 * 1024 * 1024
  maxSelectiveRecoveryRounds : Nat := 4
  recoveryTtl : Nat := 120000
  recoveryCapabilityTtl : Nat := 300000

def FramingConfig.reassemblyLimits (c : FramingConfig) : ReassemblyLimits where
  maxLogicalMessageSize := c.maxLogicalMessageSize
  maxFragmentsPerMessage := c.maxFragmentsPerMessage
  maxIncompleteTransfersPerPeer := c.maxIncompleteTransfersPerPeer
  maxReassemblyBytesPerPeer := c.maxReassemblyBytesPerPeer
  maxTotalReassemblyBytes := c.maxTotalReassemblyBytes
  reassemblyTtl := c.reassemblyTtl

inductive FrameError where
  | empty
  | unknownTag (tag : UInt8)
  | truncatedFragmentHeader
  | emptyFragment
  | invalidFragmentBounds
  | logicalMessageTooLarge
  | tooManyFragments
  | inconsistentMetadata
  | overlappingFragment
  | hashMismatch
  | reassemblyCapacity
  deriving DecidableEq, Repr

def FrameError.isLimit : FrameError → Bool
  | .logicalMessageTooLarge | .tooManyFragments | .reassemblyCapacity => true
  | _ => false

def writeComplete (payload : Bytes) : Bytes := completeTag :: payload

def fragmentFrame (id : TransferId) (totalLen offset : Nat) (payload : Bytes) : Bytes :=
  fragmentTag :: (id.bytes ++ Wire.leBytes 4 totalLen ++ Wire.leBytes 4 offset ++ payload)

def writeFragment (id : TransferId) (totalLen offset : Nat) (payload : Bytes) :
    Except FrameError Bytes :=
  if 2 ^ 32 ≤ totalLen then .error .logicalMessageTooLarge
  else if 2 ^ 32 ≤ offset then .error .invalidFragmentBounds
  else .ok (fragmentFrame id totalLen offset payload)

def completePayloadCapacity (budget overhead : Nat) : Option Nat :=
  if overhead + completeHeaderLen ≤ budget then some (budget - (overhead + completeHeaderLen))
  else none

def fragmentPayloadCapacity (budget overhead : Nat) : Option Nat :=
  if overhead + fragmentHeaderLen ≤ budget then some (budget - (overhead + fragmentHeaderLen))
  else none

/-- The fragments of a payload, cut at multiples of the capacity. -/
def originals (c : Nat) (payload : Bytes) : List (Nat × Bytes) := Pieces.cut c 0 payload

def capacities (overhead : Nat) (config : FramingConfig) : Option (Nat × Nat) :=
  match completePayloadCapacity config.datagramPayloadBudget overhead,
    fragmentPayloadCapacity config.datagramPayloadBudget overhead with
  | some complete, some fragment => some (min complete config.maxLogicalMessageSize, fragment)
  | _, _ => none

def writeFragments (id : TransferId) (totalLen : Nat) :
    List (Nat × Bytes) → Except FrameError (List Bytes)
  | [] => .ok []
  | p :: ps => do
    let frame ← writeFragment id totalLen p.1 p.2
    let frames ← writeFragments id totalLen ps
    return frame :: frames

/-- The frames of one logical payload, in the order they are sent; none when a limit drops it. -/
def sendLogicalPayload (hash : Bytes → TransferId) (config : FramingConfig) (overhead : Nat)
    (payload : Bytes) : Except FrameError (List Bytes) :=
  match capacities overhead config with
  | none => .ok []
  | some (completeCapacity, fragmentCapacity) =>
    if config.maxLogicalMessageSize < payload.length then .ok []
    else if payload.length ≤ completeCapacity then .ok [writeComplete payload]
    else if fragmentCapacity = 0 then .ok []
    else if config.maxFragmentsPerMessage < Pieces.chunkCount fragmentCapacity payload then .ok []
    else writeFragments (hash payload) payload.length (originals fragmentCapacity payload)

structure FragmentInput where
  id : TransferId
  totalLen : Nat
  offset : Nat
  bytes : Bytes
  deriving DecidableEq

def readFragment (bytes : Bytes) (h : fragmentHeaderLen ≤ bytes.length) : FragmentInput where
  id := Fixed.front 32 (bytes.drop 1) (by
    rw [List.length_drop]
    unfold fragmentHeaderLen at h
    omega)
  totalLen := Wire.leNat ((bytes.drop 33).take 4)
  offset := Wire.leNat ((bytes.drop 37).take 4)
  bytes := bytes.drop fragmentHeaderLen

theorem fragmentFrame_length (id : TransferId) (totalLen offset : Nat) (payload : Bytes) :
    (fragmentFrame id totalLen offset payload).length = fragmentHeaderLen + payload.length := by
  simp only [fragmentFrame, fragmentHeaderLen, List.length_cons, List.length_append, id.length_eq,
    Wire.leBytes_length]
  omega

theorem readFragment_fragmentFrame (id : TransferId) (totalLen offset : Nat) (payload : Bytes)
    (ht : totalLen < 2 ^ 32) (ho : offset < 2 ^ 32)
    (h : fragmentHeaderLen ≤ (fragmentFrame id totalLen offset payload).length) :
    readFragment (fragmentFrame id totalLen offset payload) h = ⟨id, totalLen, offset, payload⟩ := by
  have hid := id.length_eq
  have hlen : ∀ n, (Wire.leBytes 4 n).length = 4 := Wire.leBytes_length 4
  have h33 : (fragmentFrame id totalLen offset payload).drop 33 =
      Wire.leBytes 4 totalLen ++ (Wire.leBytes 4 offset ++ payload) := by
    rw [fragmentFrame, List.drop_succ_cons, List.append_assoc, List.append_assoc]
    exact List.drop_left' hid
  have h37 : (fragmentFrame id totalLen offset payload).drop 37 =
      Wire.leBytes 4 offset ++ payload := by
    rw [show 37 = 33 + 4 from rfl, ← List.drop_drop, h33]
    exact List.drop_left' (hlen _)
  have h41 : (fragmentFrame id totalLen offset payload).drop fragmentHeaderLen = payload := by
    rw [fragmentHeaderLen, show 41 = 37 + 4 from rfl, ← List.drop_drop, h37]
    exact List.drop_left' (hlen _)
  have hfront : (readFragment (fragmentFrame id totalLen offset payload) h).id = id := by
    apply Fixed.bytes_injective
    simp only [readFragment, Fixed.front, fragmentFrame, List.drop_succ_cons, List.drop_zero,
      List.append_assoc]
    exact List.take_left' hid
  have htotal : Wire.leNat (((fragmentFrame id totalLen offset payload).drop 33).take 4) =
      totalLen := by
    rw [h33, List.take_left' (hlen _)]
    exact Wire.leNat_leBytes 4 totalLen ht
  have hoffset : Wire.leNat (((fragmentFrame id totalLen offset payload).drop 37).take 4) =
      offset := by
    rw [h37, List.take_left' (hlen _)]
    exact Wire.leNat_leBytes 4 offset ho
  rw [readFragment, htotal, hoffset, h41]
  rw [readFragment] at hfront
  exact congrArg (FragmentInput.mk · totalLen offset payload) hfront

theorem writeFragments_ok {id : TransferId} {ps : List (Nat × Bytes)} (hlen : totalLen < 2 ^ 32)
    (h : ∀ p ∈ ps, p.1 < 2 ^ 32) :
    writeFragments id totalLen ps = .ok (ps.map fun p => fragmentFrame id totalLen p.1 p.2) := by
  induction ps with
  | nil => rfl
  | cons p ps ih =>
    have hp := h p List.mem_cons_self
    have hps := ih fun q hq => h q (List.mem_cons_of_mem p hq)
    rw [writeFragments, writeFragment, if_neg (by omega), if_neg (by omega), hps]
    rfl

theorem writeFragments_word {id : TransferId} {p : Nat × Bytes} {ps : List (Nat × Bytes)}
    (h : writeFragments id totalLen (p :: ps) = .ok frames) : totalLen < 2 ^ 32 := by
  by_contra hn
  rw [writeFragments, writeFragment, if_pos (by omega)] at h
  cases h

/-- A payload cut at `c` that the limits of a receiver let through. -/
structure Sendable (limits : ReassemblyLimits) (c : Nat) (payload : Bytes) : Prop where
  pos : 0 < c
  word : payload.length < 2 ^ 32
  size : payload.length ≤ limits.maxLogicalMessageSize
  count : Pieces.chunkCount c payload ≤ limits.maxFragmentsPerMessage

def originalFrame (hash : Bytes → TransferId) (payload : Bytes) (p : Nat × Bytes) : Bytes :=
  fragmentFrame (hash payload) payload.length p.1 p.2

theorem originalFrame_header (hash : Bytes → TransferId) (payload : Bytes) (p : Nat × Bytes) :
    fragmentHeaderLen ≤ (originalFrame hash payload p).length := by
  rw [originalFrame, fragmentFrame_length]
  exact Nat.le_add_right _ _

theorem readFragment_originalFrame {hash : Bytes → TransferId} (hs : Sendable limits c payload)
    (hp : p ∈ originals c payload) :
    readFragment (originalFrame hash payload p) (originalFrame_header hash payload p) =
      ⟨hash payload, payload.length, p.1, p.2⟩ := by
  have hword := hs.word
  have hend := ((Pieces.cut_spaced hs.pos 0 payload).mem hp).2.2
  exact readFragment_fragmentFrame _ _ _ _ hword (by omega) _

theorem originalFrame_injective {hash : Bytes → TransferId} (hs : Sendable limits c payload)
    (hp : p ∈ originals c payload) (hq : q ∈ originals c payload)
    (he : originalFrame hash payload p = originalFrame hash payload q) : p = q := by
  have hread := @readFragment_originalFrame _ _ _ _ hash hs hp
  simp only [he] at hread
  rw [readFragment_originalFrame hs hq] at hread
  injection hread with _ _ h1 h2
  exact (Prod.ext h1 h2).symm

/-- A payload sent in several frames is cut at the fragment capacity and meets the limits. -/
theorem sendLogicalPayload_fragments {hash : Bytes → TransferId} {config : FramingConfig}
    (h : sendLogicalPayload hash config overhead payload = .ok frames) (hf : 2 ≤ frames.length) :
    ∃ c, Sendable config.reassemblyLimits c payload ∧
      fragmentPayloadCapacity config.datagramPayloadBudget overhead = some c ∧
      frames = (originals c payload).map (originalFrame hash payload) := by
  have hnil : ∀ {l : List Bytes}, l.length < 2 → Except.ok l = (.ok frames : Except FrameError _) →
      False := by
    intro l hl he
    cases he
    omega
  unfold sendLogicalPayload at h
  split at h
  · exact (hnil (by decide) h).elim
  next complete fragment hcap =>
  have hfrag : fragmentPayloadCapacity config.datagramPayloadBudget overhead = some fragment := by
    unfold capacities at hcap
    split at hcap
    · next hf => cases hcap; exact hf
    · cases hcap
  split at h
  · exact (hnil (by decide) h).elim
  next hsize =>
  split at h
  · exact (hnil (by rw [List.length_singleton]; decide) h).elim
  split at h
  · exact (hnil (by decide) h).elim
  next hpos =>
  split at h
  · exact (hnil (by decide) h).elim
  next hcount =>
  have hpos' : 0 < fragment := Nat.pos_of_ne_zero hpos
  have hword : payload.length < 2 ^ 32 := by
    cases ho : originals fragment payload with
    | nil =>
      rw [ho] at h
      exact (hnil (by decide) h).elim
    | cons p ps =>
      rw [ho] at h
      exact writeFragments_word h
  refine ⟨fragment, ⟨hpos', hword, Nat.le_of_not_lt hsize, Nat.le_of_not_lt hcount⟩, hfrag, ?_⟩
  rw [writeFragments_ok hword] at h
  · cases h
    rfl
  · intro p hp
    have hb := ((Pieces.cut_spaced hpos' 0 payload).mem hp).2.2
    omega

end Reconcile
