import Reconcile.Lib.Fixed
import Reconcile.Storage

namespace Reconcile
open Lib
set_option autoImplicit true

abbrev PeerId : Type := Fixed 32
abbrev ClusterKey : Type := Fixed 32
abbrev Signature : Type := Fixed 64

/-- What the crypto crates supply. Both MAC backends recompute the tag to verify it. -/
structure Primitives where
  tag : ClusterKey → Bytes → Fixed 32
  encrypt : ClusterKey → Fixed 24 → Bytes → Bytes
  decrypt : ClusterKey → Fixed 24 → Bytes → Option Bytes
  peerId : Fixed 32 → PeerId
  sign : Fixed 32 → Bytes → Signature
  verifyStrict : PeerId → Bytes → Signature → Bool
  length_encrypt : ∀ key nonce payload, (encrypt key nonce payload).length = payload.length + 16
  decrypt_encrypt : ∀ key nonce payload, decrypt key nonce (encrypt key nonce payload) = some payload
  verifyStrict_sign : ∀ seed message, verifyStrict (peerId seed) message (sign seed message) = true

def tagLen : Nat := 32
def versionLen : Nat := 1
def wireVersion : UInt8 := 4
def aeadNonceLen : Nat := 24
def aeadTagLen : Nat := 16
def replayHeaderLen : Nat := 16

structure Keys where
  primary : ClusterKey
  alsoAccept : List ClusterKey := []

def Keys.iter (keys : Keys) : List ClusterKey := keys.primary :: keys.alsoAccept

inductive Authenticator where
  | disabled
  | enabled (keys : Keys)
  | encrypted (keys : Keys)

structure Payload where
  bytes : Bytes
  seq : Nat
  stamp : Nat

def encodeReplayHeader (seq stamp : Nat) : Bytes := Wire.leBytes 8 seq ++ Wire.leBytes 8 stamp

def decodeReplayHeader (data : Bytes) : Option Payload :=
  if data.length < replayHeaderLen then none
  else
    some {
      bytes := data.drop replayHeaderLen
      seq := Wire.leNat (data.take 8)
      stamp := Wire.leNat ((data.drop 8).take 8) }

/-- The error carries the version found, zero for an empty payload. -/
def Payload.checkVersion (p : Payload) : Except UInt8 Payload :=
  let version := p.bytes.head?.getD 0
  if version ≠ wireVersion then .error version
  else .ok { p with bytes := p.bytes.drop versionLen }

namespace Authenticator

def isDisabled : Authenticator → Bool
  | .disabled => true
  | _ => false

def overhead : Authenticator → Nat
  | .disabled => versionLen
  | .enabled _ => tagLen + versionLen + replayHeaderLen
  | .encrypted _ => aeadNonceLen + versionLen + replayHeaderLen + aeadTagLen

theorem overhead_le (a : Authenticator) : a.overhead ≤ 57 := by
  cases a with
  | disabled => exact (by decide : versionLen ≤ 57)
  | enabled => exact (by decide : tagLen + versionLen + replayHeaderLen ≤ 57)
  | encrypted =>
    exact (by decide : aeadNonceLen + versionLen + replayHeaderLen + aeadTagLen ≤ 57)

variable (C : Primitives)

def macVerify (key : ClusterKey) (message tag : Bytes) : Bool := (C.tag key message).bytes = tag

def aeadSeal (key : ClusterKey) (nonce : Fixed 24) (payload : Bytes) : Bytes :=
  nonce.bytes ++ C.encrypt key nonce payload

def aeadOpen (key : ClusterKey) (datagram : Bytes) : Option Bytes :=
  if h : datagram.length < aeadNonceLen + aeadTagLen then none
  else
    C.decrypt key (Fixed.front 24 datagram (by
      unfold aeadNonceLen aeadTagLen at h
      omega)) (datagram.drop aeadNonceLen)

/-- `nonce` is the one drawn by the encrypted mode. -/
def «seal» (a : Authenticator) (seq stamp : Nat) (nonce : Fixed 24) (payload : Bytes) : Bytes :=
  match a with
  | .disabled => wireVersion :: payload
  | .enabled keys =>
    let protectedBytes := encodeReplayHeader seq stamp ++ wireVersion :: payload
    (C.tag keys.primary protectedBytes).bytes ++ protectedBytes
  | .encrypted keys =>
    aeadSeal C keys.primary nonce (encodeReplayHeader seq stamp ++ wireVersion :: payload)

def «open» (a : Authenticator) (datagram : Bytes) : Option Payload :=
  match a with
  | .disabled => some ⟨datagram, 0, 0⟩
  | .enabled keys =>
    if datagram.length < tagLen + replayHeaderLen then none
    else if keys.iter.any fun key => macVerify C key (datagram.drop tagLen) (datagram.take tagLen) then
      decodeReplayHeader (datagram.drop tagLen)
    else none
  | .encrypted keys =>
    (keys.iter.findSome? fun key => aeadOpen C key datagram).bind decodeReplayHeader

/-- The receiver accepts the key the sender seals with, in the same mode. A ciphertext of one key
opens under no other key of the receiver. -/
def Shares : Authenticator → Authenticator → Prop
  | .enabled keys, .enabled keys' => keys.primary ∈ keys'.iter
  | .encrypted keys, .encrypted keys' =>
    keys.primary ∈ keys'.iter ∧ ∀ key ∈ keys'.iter, key ≠ keys.primary →
      ∀ nonce payload, C.decrypt key nonce (C.encrypt keys.primary nonce payload) = none
  | _, _ => False

end Authenticator

theorem encodeReplayHeader_length (seq stamp : Nat) :
    (encodeReplayHeader seq stamp).length = replayHeaderLen := by
  rw [encodeReplayHeader, List.length_append, Wire.leBytes_length, Wire.leBytes_length]
  rfl

theorem decodeReplayHeader_encode {seq stamp : Nat} (hs : seq < 2 ^ 64) (ht : stamp < 2 ^ 64)
    (rest : Bytes) :
    decodeReplayHeader (encodeReplayHeader seq stamp ++ rest) = some ⟨rest, seq, stamp⟩ := by
  have hlen := encodeReplayHeader_length seq stamp
  have h8 : ∀ n, (Wire.leBytes 8 n).length = 8 := Wire.leBytes_length 8
  have hseq : (encodeReplayHeader seq stamp ++ rest).take 8 = Wire.leBytes 8 seq := by
    rw [encodeReplayHeader, List.append_assoc]
    exact List.take_left' (h8 seq)
  have hstamp : ((encodeReplayHeader seq stamp ++ rest).drop 8).take 8 = Wire.leBytes 8 stamp := by
    rw [encodeReplayHeader, List.append_assoc, List.drop_left' (h8 seq)]
    exact List.take_left' (h8 stamp)
  have hrest : (encodeReplayHeader seq stamp ++ rest).drop replayHeaderLen = rest :=
    List.drop_left' hlen
  rw [decodeReplayHeader, if_neg, hseq, hstamp, hrest, Wire.leNat_leBytes 8 seq hs,
    Wire.leNat_leBytes 8 stamp ht]
  rw [List.length_append, hlen]
  omega

theorem Payload.checkVersion_wireVersion (bytes : Bytes) (seq stamp : Nat) :
    Payload.checkVersion ⟨wireVersion :: bytes, seq, stamp⟩ = .ok ⟨bytes, seq, stamp⟩ := rfl

namespace Authenticator

variable {C : Primitives}

theorem aeadOpen_aeadSeal (key key' : ClusterKey) (nonce : Fixed 24) (payload : Bytes) :
    aeadOpen C key' (aeadSeal C key nonce payload) =
      C.decrypt key' nonce (C.encrypt key nonce payload) := by
  have hlen : (aeadSeal C key nonce payload).length = aeadNonceLen + (payload.length + aeadTagLen) := by
    rw [aeadSeal, List.length_append, nonce.length_eq, C.length_encrypt]
    rfl
  have hdrop : (aeadSeal C key nonce payload).drop aeadNonceLen = C.encrypt key nonce payload :=
    List.drop_left' nonce.length_eq
  rw [aeadOpen, dif_neg (by omega), hdrop]
  congr 1
  exact Fixed.front_append nonce _ _

theorem length_seal (a : Authenticator) (seq stamp : Nat) (nonce : Fixed 24) (payload : Bytes) :
    (a.seal C seq stamp nonce payload).length = payload.length + a.overhead := by
  cases a with
  | disabled => rfl
  | enabled keys =>
    simp only [«seal», overhead, List.length_append, Fixed.length_eq, encodeReplayHeader_length,
      List.length_cons, tagLen, versionLen]
    omega
  | encrypted keys =>
    simp only [«seal», aeadSeal, overhead, List.length_append, Fixed.length_eq, C.length_encrypt,
      encodeReplayHeader_length, List.length_cons, aeadNonceLen, aeadTagLen, versionLen]
    omega

/-- Of the keys tried in order, the sender's is the first that opens the datagram. -/
theorem findSome_aeadOpen {keys : List ClusterKey} (hin : key ∈ keys)
    (hother : ∀ k ∈ keys, k ≠ key → C.decrypt k nonce (C.encrypt key nonce payload) = none) :
    (keys.findSome? fun k => aeadOpen C k (aeadSeal C key nonce payload)) = some payload := by
  induction keys with
  | nil => cases hin
  | cons k keys ih =>
    rw [List.findSome?_cons, aeadOpen_aeadSeal]
    by_cases hk : k = key
    · rw [hk, C.decrypt_encrypt]
    · rw [hother k List.mem_cons_self hk]
      refine ih ?_ fun k' hk' => hother k' (List.mem_cons_of_mem k hk')
      exact (List.mem_cons.1 hin).resolve_left (Ne.symm hk)

theorem open_seal {a b : Authenticator} (h : a.Shares C b) {seq stamp : Nat} (hs : seq < 2 ^ 64)
    (ht : stamp < 2 ^ 64) (nonce : Fixed 24) (payload : Bytes) :
    b.open C (a.seal C seq stamp nonce payload) = some ⟨wireVersion :: payload, seq, stamp⟩ := by
  have hdecode := decodeReplayHeader_encode hs ht (wireVersion :: payload)
  cases a with
  | disabled => exact h.elim
  | enabled keys =>
    cases b with
    | disabled => exact h.elim
    | encrypted keys' => exact h.elim
    | enabled keys' =>
      have hdrop : ((enabled keys).seal C seq stamp nonce payload).drop tagLen =
          encodeReplayHeader seq stamp ++ wireVersion :: payload :=
        List.drop_left' (Fixed.length_eq _)
      have htake : ((enabled keys).seal C seq stamp nonce payload).take tagLen =
          (C.tag keys.primary (encodeReplayHeader seq stamp ++ wireVersion :: payload)).bytes :=
        List.take_left' (Fixed.length_eq _)
      rw [Authenticator.open, hdrop, htake, if_neg, if_pos, hdecode]
      · rw [List.any_eq_true]
        exact ⟨keys.primary, h, decide_eq_true rfl⟩
      · rw [length_seal, overhead]
        omega
  | encrypted keys =>
    cases b with
    | disabled => exact h.elim
    | enabled keys' => exact h.elim
    | encrypted keys' =>
      simp only [«seal», Authenticator.open]
      rw [findSome_aeadOpen h.1 fun k hk hne => h.2 k hk hne nonce _, Option.bind_some, hdecode]

end Authenticator

end Reconcile
