import Reconcile.Boundary

namespace Reconcile
open Lib
set_option autoImplicit true

namespace Boundary

variable {C : Primitives} {b : Boundary} {call : SealCall}

theorem length_sealInner (b : Boundary) (call : SealCall) :
    (b.sealInner C call).length = call.frame.length + b.authenticator.overhead :=
  Authenticator.length_seal _ _ _ _ _

def sealProof (C : Primitives) (b : Boundary) (call : SealCall) : Signature :=
  C.sign b.signer (proofMessage (b.sealInner C call))

theorem overhead_eq (b : Boundary) :
    b.authenticator.overhead = b.mtu - identityEnvelopeOverhead - b.payloadBudget := by
  have hmtu := b.mtu_gt
  rw [payloadBudget]
  omega

theorem inner_lt_of_mtu (hword : b.mtu < 2 ^ 32) (hfits : n ≤ b.payloadBudget) :
    n + b.authenticator.overhead < 2 ^ 32 := by
  have hmtu := b.mtu_gt
  rw [payloadBudget] at hfits
  omega

theorem seal_of_fits (hword : call.frame.length + b.authenticator.overhead < 2 ^ 32)
    (hfits : call.frame.length ≤ b.payloadBudget) :
    (b.seal C call).1 =
      .ok (envelopeBytes (b.localPeer C) (b.sealProof C call) (b.sealInner C call)) := by
  have hlen : (b.sealInner C call).length = call.frame.length + b.authenticator.overhead :=
    length_sealInner b call
  have hmtu := b.mtu_gt
  rw [payloadBudget] at hfits
  have hinner : identityEnvelopeOverhead + (b.sealInner C call).length ≤ b.mtu := by omega
  have henvelope : sealEnvelope C b.signer (b.sealInner C call) b.mtu =
      .ok (envelopeBytes (b.localPeer C) (b.sealProof C call) (b.sealInner C call)) := by
    rw [sealEnvelope, if_neg (by omega), if_neg (by omega)]
    rfl
  rw [«seal», if_neg (by rw [payloadBudget]; omega), henvelope]

theorem seal_eq_ok (h : (b.seal C call).1 = .ok datagram) :
    call.frame.length ≤ b.payloadBudget ∧
      datagram = envelopeBytes (b.localPeer C) (b.sealProof C call) (b.sealInner C call) ∧
      (b.sealInner C call).length < 2 ^ 32 ∧
      identityEnvelopeOverhead + (b.sealInner C call).length ≤ b.mtu := by
  unfold «seal» at h
  split at h
  · cases h
  next hfits =>
  unfold sealEnvelope at h
  split at h
  · cases h
  next sealed heq =>
  cases h
  split at heq
  · cases heq
  next hword =>
  split at heq
  · cases heq
  next hmtu =>
  cases heq
  exact ⟨Nat.not_lt.1 hfits, rfl, Nat.not_le.1 hword, Nat.not_lt.1 hmtu⟩

theorem authenticate_seal {receiver : Boundary}
    (hkey : b.authenticator.Shares C receiver.authenticator) (hmtu : receiver.mtu = b.mtu)
    (hallowed : receiver.allowlist.contains (b.localPeer C) = true)
    (h : (b.seal C call).1 = .ok datagram) :
    receiver.authenticate C datagram = .ok (b.localPeer C,
      ⟨call.frame, b.counter.nextSeq.1, (b.counter.nextStampAt call.nowMs).1⟩) := by
  obtain ⟨_, rfl, hword, hmax⟩ := seal_eq_ok h
  have hstamp : (b.counter.nextStampAt call.nowMs).1 < 2 ^ 64 :=
    Nat.max_lt.2 ⟨b.stampFloor_lt, call.nowMs_lt⟩
  have hinner : receiver.authenticator.open C (b.sealInner C call) =
      some ⟨wireVersion :: call.frame, b.counter.nextSeq.1,
        (b.counter.nextStampAt call.nowMs).1⟩ :=
    Authenticator.open_seal hkey b.seq_lt hstamp call.nonce call.frame
  have hproof : C.verifyStrict (b.localPeer C) (proofMessage (b.sealInner C call))
      (b.sealProof C call) = true := C.verifyStrict_sign _ _
  rw [authenticate, openEnvelope_envelopeBytes hallowed hproof hword (hmtu ▸ hmax)]
  simp only [hinner, Payload.checkVersion_wireVersion]

theorem authenticate_eq_ok (h : b.authenticate C datagram = .ok (peer, payload)) :
    ∃ inner, openEnvelope C b.allowlist datagram b.mtu = .ok (peer, inner) := by
  unfold authenticate at h
  split at h
  · cases h
  next signer inner heq =>
  split at h
  · cases h
  · split at h
    · cases h
    · cases h
      exact ⟨inner, heq⟩

theorem open_eq_ok (h : (b.open C peerState now datagram).1 = .ok (peer, frame)) :
    ∃ payload, b.authenticate C datagram = .ok (peer, payload) ∧ payload.bytes = frame ∧
      ((peerState peer).1 = true ∨ (peerState peer).2 < b.maxPeers) ∧
      (Replay.checkAndRecordSender b.replayPolicy b.replayPeers peer payload.seq payload.stamp
        now).1 = true := by
  unfold «open» at h
  split at h
  · cases h
  next signer payload heq =>
  simp only at h
  split at h
  · cases h
  next hcap =>
  simp only at h
  split at h
  · next hreplay =>
    cases h
    refine ⟨payload, heq, rfl, ?_, hreplay⟩
    by_cases hknown : (peerState peer).1 = true
    · exact .inl hknown
    · refine .inr (Nat.not_le.1 fun hle => hcap ⟨?_, hle⟩)
      rw [Bool.not_eq_true', ← Bool.not_eq_true]
      exact hknown
  · cases h

def sealedDatagrams (C : Primitives) (history : List (Boundary × SealCall)) : List Bytes :=
  history.filterMap fun c => (c.1.seal C c.2).1.toOption

def signatures (C : Primitives) (history : List (Boundary × SealCall)) : List (Bytes × Signature) :=
  history.filterMap fun c => (c.1.seal C c.2).1.toOption.map fun _ =>
    (proofMessage (c.1.sealInner C c.2), c.1.sealProof C c.2)

/-- If the datagram carries a valid proof of the peer, one of the calls made it. -/
def Unforged (C : Primitives) (history : List (Boundary × SealCall)) (peer : PeerId)
    (datagram : Bytes) : Prop :=
  ∀ signature inner, datagram = envelopeBytes peer signature inner →
    C.verifyStrict peer (proofMessage inner) signature = true →
    (proofMessage inner, signature) ∈ signatures C history

/-- The signature covers every byte, so an accepted datagram is one of those put out. -/
theorem mem_sealedDatagrams {history : List (Boundary × SealCall)}
    (hpeer : ∀ c ∈ history, c.1.localPeer C = peer) (hunforged : Unforged C history peer datagram)
    (h : b.authenticate C datagram = .ok (peer, payload)) :
    datagram ∈ sealedDatagrams C history := by
  obtain ⟨inner, hopen⟩ := authenticate_eq_ok h
  obtain ⟨_, signature, hbytes, hproof⟩ := openEnvelope_eq_ok hopen
  obtain ⟨c, hc, hsigned⟩ := List.mem_filterMap.1 (hunforged signature inner hbytes hproof)
  refine List.mem_filterMap.2 ⟨c, hc, ?_⟩
  cases hseal : (c.1.seal C c.2).1 with
  | error err =>
    rw [hseal] at hsigned
    cases hsigned
  | ok sealed =>
    rw [hseal] at hsigned
    simp only [Except.toOption, Option.map_some, Option.some.injEq, Prod.mk.injEq] at hsigned ⊢
    obtain ⟨_, hsealed, _⟩ := seal_eq_ok hseal
    rw [hsealed, hbytes, hpeer c hc, proofMessage_injective hsigned.1, hsigned.2]

/-- Two boundaries that share a key and an MTU: what the first seals the second opens, and whatever
the second accepts from a peer is a datagram that peer sealed. -/
theorem datagram_round_trip (C : Primitives) (sender receiver : Boundary)
    (hkey : sender.authenticator.Shares C receiver.authenticator)
    (hmtu : receiver.mtu = sender.mtu) (hword : sender.mtu < 2 ^ 32)
    (hallowed : receiver.allowlist.contains (sender.localPeer C) = true) (call : SealCall) :
    ((∃ datagram, (sender.seal C call).1 = .ok datagram) ↔
        call.frame.length ≤ sender.payloadBudget) ∧
      (∀ datagram, (sender.seal C call).1 = .ok datagram → datagram.length ≤ sender.mtu ∧
        ∀ peerState now,
          ((peerState (sender.localPeer C)).1 = true ∨
            (peerState (sender.localPeer C)).2 < receiver.maxPeers) →
          (Replay.checkAndRecordSender receiver.replayPolicy receiver.replayPeers
            (sender.localPeer C) sender.counter.nextSeq.1
            (sender.counter.nextStampAt call.nowMs).1 now).1 = true →
          (receiver.open C peerState now datagram).1 = .ok (sender.localPeer C, call.frame)) ∧
      ∀ (peer : PeerId) (history : List (Boundary × SealCall)) (datagram frame : Bytes)
        (peerState : PeerId → Bool × Nat) (now : Nat),
        (∀ c ∈ history, c.1.localPeer C = peer) → Unforged C history peer datagram →
        (receiver.open C peerState now datagram).1 = .ok (peer, frame) →
        datagram ∈ sealedDatagrams C history := by
  refine ⟨⟨?_, ?_⟩, ?_, ?_⟩
  · rintro ⟨datagram, h⟩
    exact (seal_eq_ok h).1
  · intro hfits
    exact ⟨_, seal_of_fits (inner_lt_of_mtu hword hfits) hfits⟩
  · intro datagram h
    obtain ⟨_, hbytes, _, hmax⟩ := seal_eq_ok h
    refine ⟨?_, ?_⟩
    · rw [hbytes, envelopeBytes_length]
      exact hmax
    · intro peerState now hadmits hreplay
      have hcap : ¬((!(peerState (sender.localPeer C)).1) = true ∧
          receiver.maxPeers ≤ (peerState (sender.localPeer C)).2) := by
        rintro ⟨hunknown, hfull⟩
        rcases hadmits with hknown | hroom
        · rw [hknown] at hunknown
          cases hunknown
        · omega
      rw [«open», authenticate_seal hkey hmtu hallowed h]
      simp only [hreplay, if_true]
      rw [if_neg hcap]
  · intro peer history datagram frame peerState now hpeer hunforged h
    obtain ⟨payload, hauth, _⟩ := open_eq_ok h
    exact mem_sealedDatagrams hpeer hunforged hauth

theorem unforged_of_mem {history : PeerId → List (Boundary × SealCall)}
    (hin : (b, call) ∈ history (b.localPeer C)) (h : (b.seal C call).1 = .ok datagram)
    (peer : PeerId) : Unforged C (history peer) peer datagram := by
  intro signature inner hbytes _
  obtain ⟨_, hsealed, _⟩ := seal_eq_ok h
  obtain ⟨hpeer, hsignature, hinner⟩ := envelopeBytes_inj (hbytes.symm.trans hsealed)
  refine List.mem_filterMap.2 ⟨(b, call), hpeer ▸ hin, ?_⟩
  rw [hsignature, hinner]
  simp only [h, Except.toOption, Option.map_some]

def zeros (n : Nat) : Fixed n := ⟨List.replicate n 0, List.length_replicate⟩

def unchecked : Primitives where
  tag _ _ := zeros 32
  encrypt _ _ payload := payload ++ List.replicate 16 0
  decrypt _ _ ciphertext := some (ciphertext.take (ciphertext.length - 16))
  peerId := id
  sign _ _ := zeros 64
  verifyStrict _ _ _ := true
  length_encrypt _ _ payload := by rw [List.length_append, List.length_replicate]
  decrypt_encrypt _ _ payload := by
    rw [List.length_append, List.length_replicate, Nat.add_sub_cancel, List.take_left]
  verifyStrict_sign _ _ := rfl

def mirror : Boundary where
  authenticator := .enabled ⟨zeros 32, []⟩
  signer := zeros 32
  allowlist := HashMap.ofList [(zeros 32, ())]
  replayPolicy := ⟨300000000000, 8⟩
  maxPeers := 1
  mtu := 300
  authenticated := rfl
  mtu_gt := by decide
  seq_lt := seq_new_lt
  stampFloor_lt := stampFloor_new_lt

theorem second_lt : 1000 < 2 ^ 64 := by decide

def threeBytes : SealCall := ⟨1000, second_lt, zeros 24, [1, 2, 3]⟩

theorem datagram_round_trip_threeBytes : ∃ datagram,
    (mirror.seal unchecked threeBytes).1 = .ok datagram ∧ datagram.length ≤ 300 ∧
      (mirror.open unchecked (fun _ => (true, 0)) 1500 datagram).1 = .ok (zeros 32, [1, 2, 3]) ∧
      datagram ∈ sealedDatagrams unchecked [(mirror, threeBytes)] := by
  have hallowed : mirror.allowlist.contains (mirror.localPeer unchecked) = true := by decide
  have hreplay : (Replay.checkAndRecordSender mirror.replayPolicy mirror.replayPeers
      (mirror.localPeer unchecked) mirror.counter.nextSeq.1
      (mirror.counter.nextStampAt threeBytes.nowMs).1 1500).1 = true := by decide
  obtain ⟨hfits, hopen, hconverse⟩ := datagram_round_trip unchecked mirror mirror
    (List.mem_singleton_self (zeros 32)) rfl (by decide) hallowed threeBytes
  obtain ⟨datagram, h⟩ := hfits.2 (by decide)
  obtain ⟨hlen, hround⟩ := hopen datagram h
  have hframe := hround (fun _ => (true, 0)) 1500 (.inl rfl) hreplay
  refine ⟨datagram, h, hlen, hframe, ?_⟩
  refine hconverse (zeros 32) [(mirror, threeBytes)] datagram [1, 2, 3] (fun _ => (true, 0)) 1500 ?_
    ?_ hframe
  · intro c hc
    cases List.mem_singleton.1 hc
    rfl
  · have hin : (mirror, threeBytes) ∈ [(mirror, threeBytes)] := List.mem_singleton_self _
    exact @unforged_of_mem unchecked mirror threeBytes datagram (fun _ => [(mirror, threeBytes)]) hin
      h (zeros 32)

end Boundary

end Reconcile
