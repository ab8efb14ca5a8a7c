import Reconcile.Auth
import Reconcile.Replay.Filter
import Reconcile.Replay.Sender

namespace Reconcile
open Lib
set_option autoImplicit true

def identityMagic : Bytes := [0x52, 0x43, 0x50, 0x45]
def identityEnvelopeVersion : UInt8 := 1

def identityEnvelopeOverhead : Nat := 4 + 1 + 32 + 64 + 4

inductive EnvelopeError where
  | tooLarge
  | invalidLength
  | invalidMagic
  | unsupportedVersion (version : UInt8)
  | invalidProof
  | innerAuthentication
  | innerVersion (version : UInt8)
  deriving DecidableEq

def signatureDomain : Bytes :=
  "reconcile/gossip/peer-datagram/v1".toList.map (fun c => UInt8.ofNat c.toNat) ++ [0]

def signedBytes (datagram : Bytes) : Bytes :=
  signatureDomain ++ (Wire.leBytes 8 datagram.length ++ datagram)

def signedContents (version : UInt8) (length inner : Bytes) : Bytes :=
  identityMagic ++ version :: (length ++ inner)

def envelopeBytes (signer : PeerId) (signature : Signature) (inner : Bytes) : Bytes :=
  identityMagic ++ identityEnvelopeVersion ::
    (signer.bytes ++ (signature.bytes ++ (Wire.leBytes 4 inner.length ++ inner)))

def proofMessage (inner : Bytes) : Bytes :=
  signedBytes (signedContents identityEnvelopeVersion (Wire.leBytes 4 inner.length) inner)

structure PeerProof where
  claimed : PeerId
  signature : Signature

section Crypto

variable (C : Primitives)

def sealEnvelope (seed : Fixed 32) (inner : Bytes) (maxOuterBytes : Nat) :
    Except EnvelopeError Bytes :=
  if 2 ^ 32 ≤ inner.length then .error .tooLarge
  else if maxOuterBytes < identityEnvelopeOverhead + inner.length then .error .tooLarge
  else .ok (envelopeBytes (C.peerId seed) (C.sign seed (proofMessage inner)) inner)

def allowlistVerify (allowlist : HashSet PeerId) (datagram : Bytes) (proof : PeerProof) :
    Option PeerId :=
  if !allowlist.contains proof.claimed then none
  else if C.verifyStrict proof.claimed (signedBytes datagram) proof.signature then
    some proof.claimed
  else none

def envelopeProof (frame : Bytes) (h : ¬frame.length < identityEnvelopeOverhead) : PeerProof where
  claimed := Fixed.front 32 (frame.drop 5) (by
    unfold identityEnvelopeOverhead at h
    rw [List.length_drop]
    omega)
  signature := Fixed.front 64 (frame.drop 37) (by
    unfold identityEnvelopeOverhead at h
    rw [List.length_drop]
    omega)

/-- The result is the verified signer and the inner datagram. -/
def openEnvelope (allowlist : HashSet PeerId) (frame : Bytes) (maxOuterBytes : Nat) :
    Except EnvelopeError (PeerId × Bytes) :=
  if maxOuterBytes < frame.length then .error .tooLarge
  else if h : frame.length < identityEnvelopeOverhead then .error .invalidLength
  else if frame.take 4 ≠ identityMagic then .error .invalidMagic
  else
    let version := (frame.drop 4).head?.getD 0
    let length := (frame.drop 101).take 4
    let inner := frame.drop identityEnvelopeOverhead
    if version ≠ identityEnvelopeVersion then .error (.unsupportedVersion version)
    else if ¬(inner.length < 2 ^ 32 ∧ inner.length = Wire.leNat length) then .error .invalidLength
    else
      match allowlistVerify C allowlist (signedContents version length inner)
          (envelopeProof frame h) with
      | none => .error .invalidProof
      | some peer => .ok (peer, inner)

end Crypto

inductive SignedDatagramError where
  | missingInnerAuthentication
  | mtuTooSmall
  | envelope (err : EnvelopeError)
  | peerCap (current maximum : Nat)
  | replay
  deriving DecidableEq

/-- One signed endpoint. The constructor's checks and the widths of the sender's counters are kept
as fields. -/
structure Boundary where
  authenticator : Authenticator
  signer : Fixed 32
  allowlist : HashSet PeerId
  counter : Replay.SenderCounter := {}
  replayPolicy : Replay.Policy
  replayPeers : HashMap PeerId Replay.PeerState := ∅
  maxPeers : Nat
  mtu : Nat
  authenticated : authenticator.isDisabled = false
  mtu_gt : identityEnvelopeOverhead + authenticator.overhead < mtu
  seq_lt : counter.seq < 2 ^ 64
  stampFloor_lt : counter.stampFloor < 2 ^ 64

/-- The readings one `seal` takes: the wall clock in milliseconds, and a nonce in encrypted mode. -/
structure SealCall where
  nowMs : Nat
  nowMs_lt : nowMs < 2 ^ 64
  nonce : Fixed 24
  frame : Bytes

namespace Boundary

theorem seq_new_lt : ({} : Replay.SenderCounter).seq < 2 ^ 64 := by decide

theorem stampFloor_new_lt : ({} : Replay.SenderCounter).stampFloor < 2 ^ 64 := by decide

def new (authenticator : Authenticator) (signer : Fixed 32) (allowlist : HashSet PeerId)
    (freshnessWindow maxReplaySenders maxPeers mtu : Nat) : Except SignedDatagramError Boundary :=
  if hd : authenticator.isDisabled then .error .missingInnerAuthentication
  else if hm : mtu ≤ identityEnvelopeOverhead + authenticator.overhead then .error .mtuTooSmall
  else
    .ok {
      authenticator := authenticator
      signer := signer
      allowlist := allowlist
      replayPolicy := ⟨freshnessWindow, maxReplaySenders⟩
      maxPeers := maxPeers
      mtu := mtu
      authenticated := Bool.eq_false_iff.2 hd
      mtu_gt := Nat.lt_of_not_le hm
      seq_lt := seq_new_lt
      stampFloor_lt := stampFloor_new_lt }

def payloadBudget (b : Boundary) : Nat :=
  b.mtu - identityEnvelopeOverhead - b.authenticator.overhead

theorem new_allowlist {b : Boundary} {allowed : HashSet PeerId}
    (h : new a seed allowed window senders peers size = .ok b) (allowed' : HashSet PeerId) :
    ∃ b', new a seed allowed' window senders peers size = .ok b' ∧
      b'.payloadBudget = b.payloadBudget := by
  unfold new at h ⊢
  split at h
  · cases h
  · next hd =>
    split at h
    · cases h
    · next hm =>
      cases h
      rw [dif_neg hd, dif_neg hm]
      exact ⟨_, rfl, rfl⟩

def advance (b : Boundary) (call : SealCall) : Boundary :=
  { b with
    counter := (b.counter.nextSeq.2.nextStampAt call.nowMs).2
    seq_lt := Nat.mod_lt _ (by decide)
    stampFloor_lt := Nat.max_lt.2 ⟨b.stampFloor_lt, call.nowMs_lt⟩ }

variable (C : Primitives)

def localPeer (b : Boundary) : PeerId := C.peerId b.signer

def sealInner (b : Boundary) (call : SealCall) : Bytes :=
  b.authenticator.seal C b.counter.nextSeq.1 (b.counter.nextStampAt call.nowMs).1 call.nonce
    call.frame

def «seal» (b : Boundary) (call : SealCall) : Except SignedDatagramError Bytes × Boundary :=
  if b.payloadBudget < call.frame.length then (.error (.envelope .tooLarge), b)
  else
    match sealEnvelope C b.signer (b.sealInner C call) b.mtu with
    | .error err => (.error (.envelope err), b.advance call)
    | .ok datagram => (.ok datagram, b.advance call)

/-- The proof checks of `open`, before any state is looked at. -/
def authenticate (b : Boundary) (datagram : Bytes) : Except EnvelopeError (PeerId × Payload) :=
  match openEnvelope C b.allowlist datagram b.mtu with
  | .error err => .error err
  | .ok (peer, inner) =>
    match b.authenticator.open C inner with
    | none => .error .innerAuthentication
    | some payload =>
      match payload.checkVersion with
      | .error version => .error (.innerVersion version)
      | .ok payload => .ok (peer, payload)

/-- `now` is the replay filter's clock reading, `peerState` the caller's membership lookup. -/
def «open» (b : Boundary) (peerState : PeerId → Bool × Nat) (now : Nat) (datagram : Bytes) :
    Except SignedDatagramError (PeerId × Bytes) × Boundary :=
  match b.authenticate C datagram with
  | .error err => (.error (.envelope err), b)
  | .ok (peer, payload) =>
    let (known, count) := peerState peer
    if !known ∧ b.maxPeers ≤ count then (.error (.peerCap count b.maxPeers), b)
    else
      let checked := Replay.checkAndRecordSender b.replayPolicy b.replayPeers peer payload.seq
        payload.stamp now
      (if checked.1 then .ok (peer, payload.bytes) else .error .replay,
        { b with replayPeers := checked.2 })

end Boundary

theorem envelopeBytes_length (signer : PeerId) (signature : Signature) (inner : Bytes) :
    (envelopeBytes signer signature inner).length = identityEnvelopeOverhead + inner.length := by
  simp only [envelopeBytes, identityMagic, identityEnvelopeOverhead, List.length_append,
    List.length_cons, List.length_nil, signer.length_eq, signature.length_eq, Wire.leBytes_length]
  omega

theorem drop_signature (signer : PeerId) (signature : Signature) (inner : Bytes) :
    (envelopeBytes signer signature inner).drop 37 =
      signature.bytes ++ (Wire.leBytes 4 inner.length ++ inner) := by
  have h5 : (envelopeBytes signer signature inner).drop 5 =
      signer.bytes ++ (signature.bytes ++ (Wire.leBytes 4 inner.length ++ inner)) := rfl
  rw [show 37 = 5 + 32 from rfl, ← List.drop_drop, h5]
  exact List.drop_left' signer.length_eq

theorem drop_length (signer : PeerId) (signature : Signature) (inner : Bytes) :
    (envelopeBytes signer signature inner).drop 101 = Wire.leBytes 4 inner.length ++ inner := by
  rw [show 101 = 37 + 64 from rfl, ← List.drop_drop, drop_signature]
  exact List.drop_left' signature.length_eq

theorem drop_inner (signer : PeerId) (signature : Signature) (inner : Bytes) :
    (envelopeBytes signer signature inner).drop identityEnvelopeOverhead = inner := by
  rw [identityEnvelopeOverhead, show 4 + 1 + 32 + 64 + 4 = 101 + 4 from rfl, ← List.drop_drop,
    drop_length]
  exact List.drop_left' (Wire.leBytes_length 4 _)

theorem envelopeProof_envelopeBytes (signer : PeerId) (signature : Signature) (inner : Bytes)
    (h : ¬(envelopeBytes signer signature inner).length < identityEnvelopeOverhead) :
    envelopeProof (envelopeBytes signer signature inner) h = ⟨signer, signature⟩ := by
  have hsigner : (envelopeProof (envelopeBytes signer signature inner) h).claimed = signer :=
    Fixed.bytes_injective (List.take_left' signer.length_eq)
  have hsignature : (envelopeProof (envelopeBytes signer signature inner) h).signature =
      signature :=
    Fixed.bytes_injective ((congrArg (List.take 64) (drop_signature signer signature inner)).trans
      (List.take_left' signature.length_eq))
  cases hp : envelopeProof (envelopeBytes signer signature inner) h with
  | mk claimed sig =>
    rw [hp] at hsigner hsignature
    cases hsigner
    cases hsignature
    rfl

variable {inner inner' : Bytes}

theorem envelopeBytes_inj {signer signer' : PeerId} {signature signature' : Signature}
    (h : envelopeBytes signer signature inner = envelopeBytes signer' signature' inner') :
    signer = signer' ∧ signature = signature' ∧ inner = inner' := by
  have hlen : ¬(envelopeBytes signer signature inner).length < identityEnvelopeOverhead := by
    rw [envelopeBytes_length]
    omega
  have hproof := envelopeProof_envelopeBytes signer signature inner hlen
  have hinner := drop_inner signer signature inner
  simp only [h, envelopeProof_envelopeBytes, PeerProof.mk.injEq] at hproof
  rw [h, drop_inner] at hinner
  exact ⟨hproof.1.symm, hproof.2.symm, hinner.symm⟩

theorem eq_envelopeBytes {frame : Bytes} (h : ¬frame.length < identityEnvelopeOverhead)
    (hmagic : frame.take 4 = identityMagic)
    (hversion : (frame.drop 4).head?.getD 0 = identityEnvelopeVersion)
    (hlength : (frame.drop identityEnvelopeOverhead).length = Wire.leNat ((frame.drop 101).take 4)) :
    frame = envelopeBytes (envelopeProof frame h).claimed (envelopeProof frame h).signature
      (frame.drop identityEnvelopeOverhead) := by
  have h105 : 105 ≤ frame.length := Nat.not_lt.1 h
  have h4 : frame.drop 4 = identityEnvelopeVersion :: frame.drop 5 := by
    cases hd : frame.drop 4 with
    | nil =>
      have := congrArg List.length hd
      rw [List.length_drop, List.length_nil] at this
      omega
    | cons version rest =>
      have hrest : frame.drop 5 = rest := by
        rw [show 5 = 4 + 1 from rfl, ← List.drop_drop, hd]
        rfl
      rw [hd] at hversion
      rw [hrest, ← hversion]
      rfl
  have h5 : frame.drop 5 = (envelopeProof frame h).claimed.bytes ++ frame.drop 37 := by
    rw [show 37 = 5 + 32 from rfl, ← List.drop_drop]
    exact (List.take_append_drop 32 (frame.drop 5)).symm
  have h37 : frame.drop 37 = (envelopeProof frame h).signature.bytes ++ frame.drop 101 := by
    rw [show 101 = 37 + 64 from rfl, ← List.drop_drop]
    exact (List.take_append_drop 64 (frame.drop 37)).symm
  have hbytes : (frame.drop 101).take 4 =
      Wire.leBytes 4 (frame.drop identityEnvelopeOverhead).length := by
    have hfour : ((frame.drop 101).take 4).length = 4 := by
      rw [List.length_take, List.length_drop]
      omega
    have hread := Wire.leBytes_leNat ((frame.drop 101).take 4)
    rw [hfour, ← hlength] at hread
    exact hread.symm
  have h101 : frame.drop 101 = Wire.leBytes 4 (frame.drop identityEnvelopeOverhead).length ++
      frame.drop identityEnvelopeOverhead := by
    rw [← hbytes, identityEnvelopeOverhead, show 4 + 1 + 32 + 64 + 4 = 101 + 4 from rfl,
      ← List.drop_drop, List.take_append_drop]
  rw [envelopeBytes, ← h101, ← h37, ← h5, ← h4, ← hmagic, List.take_append_drop]

/-- The proof covers the inner datagram whole. -/
theorem proofMessage_injective (h : proofMessage inner = proofMessage inner') : inner = inner' := by
  have hdrop : ∀ i : Bytes, ((proofMessage i).drop (signatureDomain.length + 8)).drop 9 = i := by
    intro i
    rw [proofMessage, signedBytes, ← List.drop_drop, List.drop_left, List.drop_left'
      (Wire.leBytes_length 8 _), signedContents]
    have h5 : (identityMagic ++ identityEnvelopeVersion :: (Wire.leBytes 4 i.length ++ i)).drop 5 =
        Wire.leBytes 4 i.length ++ i := rfl
    rw [show 9 = 5 + 4 from rfl, ← List.drop_drop, h5]
    exact List.drop_left' (Wire.leBytes_length 4 _)
  rw [← hdrop inner, h, hdrop inner']

section Crypto

variable {C : Primitives}

theorem openEnvelope_envelopeBytes {allowlist : HashSet PeerId} {signer : PeerId}
    (hin : allowlist.contains signer = true)
    (hproof : C.verifyStrict signer (proofMessage inner) signature = true)
    (hword : inner.length < 2 ^ 32) (hmax : identityEnvelopeOverhead + inner.length ≤ maxOuter) :
    openEnvelope C allowlist (envelopeBytes signer signature inner) maxOuter =
      .ok (signer, inner) := by
  have hlen := envelopeBytes_length signer signature inner
  have hhead : ((envelopeBytes signer signature inner).drop 4).head?.getD 0 =
      identityEnvelopeVersion := rfl
  have hmagic : (envelopeBytes signer signature inner).take 4 = identityMagic := rfl
  have hfour : ((envelopeBytes signer signature inner).drop 101).take 4 =
      Wire.leBytes 4 inner.length := by
    rw [drop_length]
    exact List.take_left' (Wire.leBytes_length 4 _)
  have hnat : Wire.leNat (Wire.leBytes 4 inner.length) = inner.length :=
    Wire.leNat_leBytes 4 inner.length hword
  have hverify : allowlistVerify C allowlist
      (signedContents identityEnvelopeVersion (Wire.leBytes 4 inner.length) inner)
      ⟨signer, signature⟩ = some signer := by
    rw [allowlistVerify, hin, Bool.not_true, if_neg Bool.false_ne_true]
    exact if_pos hproof
  rw [openEnvelope, if_neg (by omega), dif_neg (by omega), if_neg (not_not.2 hmagic)]
  simp only [hhead, hfour, drop_inner, hnat, hword, and_self, not_true_eq_false, if_false, ne_eq,
    envelopeProof_envelopeBytes, hverify]

theorem openEnvelope_eq_ok {allowlist : HashSet PeerId}
    (h : openEnvelope C allowlist frame maxOuter = .ok (peer, inner)) :
    allowlist.contains peer = true ∧ ∃ signature, frame = envelopeBytes peer signature inner ∧
      C.verifyStrict peer (proofMessage inner) signature = true := by
  unfold openEnvelope at h
  split at h
  · cases h
  split at h
  · cases h
  next hlen =>
  split at h
  · cases h
  next hmagic =>
  simp only at h
  split at h
  · cases h
  next hversion =>
  split at h
  · cases h
  next hlength =>
  split at h
  · cases h
  next signer hverify =>
  cases h
  have hframe := eq_envelopeBytes hlen (not_not.1 hmagic) (not_not.1 hversion) (not_not.1 hlength).2
  have hfour : (frame.drop 101).take 4 =
      Wire.leBytes 4 (frame.drop identityEnvelopeOverhead).length := by
    conv_lhs => rw [hframe, drop_length]
    exact List.take_left' (Wire.leBytes_length 4 _)
  rw [not_not.1 hversion, hfour] at hverify
  unfold allowlistVerify at hverify
  split at hverify
  · cases hverify
  next hin =>
  split at hverify
  · next hproof =>
    cases hverify
    rw [Bool.not_eq_true', Bool.not_eq_false] at hin
    exact ⟨hin, (envelopeProof frame hlen).signature, hframe, hproof⟩
  · cases hverify

end Crypto

end Reconcile
