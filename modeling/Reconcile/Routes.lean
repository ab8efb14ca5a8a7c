import Reconcile.Boundary.Datagram
import Reconcile.Framing.Recovery

namespace Reconcile
open Lib
set_option autoImplicit true

def challengeTag : UInt8 := 0xf0
def responseTag : UInt8 := 0xf1

def controlLen : Nat := 1 + 32 + 32

abbrev Nonce : Type := Fixed 32

def encodeControl (kind : UInt8) (recipient : PeerId) (nonce : Nonce) : Bytes :=
  kind :: (recipient.bytes ++ nonce.bytes)

def parseControl (bytes : Bytes) : Option (PeerId × Nonce) :=
  if h : bytes.length = controlLen then
    some (Fixed.front 32 (bytes.drop 1) (by
        unfold controlLen at h
        rw [List.length_drop]
        omega),
      Fixed.front 32 (bytes.drop 33) (by
        unfold controlLen at h
        rw [List.length_drop]
        omega))
  else none

structure RoutedDatagram (A : Type) where
  destination : A
  bytes : Bytes

inductive SignedRouteReceive (A : Type) where
  | framed (peer : PeerId) (report : ReceiveReport)
  | probing (peer : PeerId) (challenge : Option (RoutedDatagram A))
  | reply (response : RoutedDatagram A)
  | confirmed (peer : PeerId)
  | recovery (peer : PeerId) (control : RecoveryControl)
  | ignored

inductive SignedRouteError where
  | signed (err : SignedDatagramError)
  | noConfirmedRoute
  deriving DecidableEq

structure ConfirmedRoute (A : Type) where
  route : A
  signer : PeerId

structure PendingRoute (A : Type) where
  address : A
  nonce : Nonce
  issued : Nat

/-- The directory of confirmed routes and outstanding challenges; instants and the lifetime are in
one unit. -/
structure SignedPeerRoutes (A : Type) where
  confirmed : HashMap PeerId (ConfirmedRoute A) := ∅
  pending : HashMap PeerId (PendingRoute A) := ∅
  maxPeers : Nat
  challengeTtl : Nat

/-- What one call reads from outside: the caller's instant, the replay filter's wall clock, a random
nonce, and the clock and nonce of each `seal` by its sequence number. -/
structure Readings where
  now : Nat
  wallMs : Nat
  nonce : Nonce
  sealMs : Nat → Fin (2 ^ 64)
  aeadNonce : Nat → Fixed 24

def Readings.call (r : Readings) (b : Boundary) (frame : Bytes) : SealCall where
  nowMs := r.sealMs b.counter.seq
  nowMs_lt := (r.sealMs b.counter.seq).isLt
  nonce := r.aeadNonce b.counter.seq
  frame := frame

namespace SignedPeerRoutes

variable {A : Type}

def route (r : SignedPeerRoutes A) (peer : PeerId) : Option A :=
  (r.confirmed.lookup peer).map ConfirmedRoute.route

def confirmedPeers (r : SignedPeerRoutes A) : List PeerId :=
  (r.confirmed.toList.map fun c => c.2.signer).mergeSort

def decommission (r : SignedPeerRoutes A) (peer : PeerId) : SignedPeerRoutes A :=
  { r with
    confirmed := r.confirmed.erase peer
    pending := r.pending.erase peer }

def live (r : SignedPeerRoutes A) (now : Nat) (candidate : PendingRoute A) : Bool :=
  now - candidate.issued < r.challengeTtl

def purge (r : SignedPeerRoutes A) (now : Nat) : SignedPeerRoutes A :=
  { r with pending := r.pending.retain (r.live now) }

variable [DecidableEq A]

/-- The response is the one an outstanding challenge waits for. -/
def expects (r : SignedPeerRoutes A) (peer : PeerId) (source : A) (nonce : Nonce) (now : Nat) :
    Bool :=
  (r.pending.lookup peer).any fun candidate =>
    candidate.address = source && candidate.nonce = nonce && r.live now candidate

def confirm (r : SignedPeerRoutes A) (peer : PeerId) (source : A) : SignedPeerRoutes A :=
  { r with
    pending := r.pending.erase peer
    confirmed := r.confirmed.insert peer ⟨source, peer⟩ }

def challenge (r : SignedPeerRoutes A) (peer : PeerId) (source : A) (nonce : Nonce) (now : Nat) :
    SignedPeerRoutes A :=
  { r with pending := r.pending.insert peer ⟨source, nonce, now⟩ }

/-- No challenge is sent to an address already challenged, nor for a new peer past the capacity. -/
def declines (r : SignedPeerRoutes A) (peer : PeerId) (source : A) : Bool :=
  (r.pending.lookup peer).any (fun candidate => candidate.address = source) ||
    (!r.pending.contains peer && !r.confirmed.contains peer &&
      r.maxPeers ≤ r.confirmed.len + r.pending.len)

end SignedPeerRoutes

structure Ingress (A : Type) where
  routes : SignedPeerRoutes A
  boundary : Boundary
  reassembler : Reassembler PeerId

namespace Ingress

variable {A : Type} [DecidableEq A] (C : Primitives) (hash : Bytes → TransferId)

def sealFrame (i : Ingress A) (r : Readings) (frame : Bytes) :
    Except SignedDatagramError Bytes × Ingress A :=
  let sealed := i.boundary.seal C (r.call i.boundary frame)
  (sealed.1, { i with boundary := sealed.2 })

def sealTo (i : Ingress A) (peer : PeerId) (r : Readings) (frame : Bytes) :
    Except SignedRouteError (RoutedDatagram A) × Ingress A :=
  match i.routes.route peer with
  | none => (.error .noConfirmedRoute, i)
  | some destination =>
    match i.sealFrame C r frame with
    | (.error err, i) => (.error (.signed err), i)
    | (.ok bytes, i) => (.ok ⟨destination, bytes⟩, i)

def startProbe (i : Ingress A) (peer : PeerId) (source : A) (r : Readings) :
    Except SignedRouteError (Option (RoutedDatagram A)) × Ingress A :=
  let purged := { i with routes := i.routes.purge r.now }
  if purged.routes.declines peer source then (.ok none, purged)
  else
    match purged.sealFrame C r (encodeControl challengeTag peer r.nonce) with
    | (.error err, i) => (.error (.signed err), i)
    | (.ok bytes, i) =>
      (.ok (some ⟨source, bytes⟩),
        { i with routes := i.routes.challenge peer source r.nonce r.now })

def receiveChallenge (i : Ingress A) (peer : PeerId) (frame : Bytes) (source : A) (r : Readings) :
    Except SignedRouteError (SignedRouteReceive A) × Ingress A :=
  match parseControl frame with
  | none => (.ok .ignored, i)
  | some (recipient, nonce) =>
    if recipient ≠ i.boundary.localPeer C then (.ok .ignored, i)
    else
      match i.sealFrame C r (encodeControl responseTag peer nonce) with
      | (.error err, i) => (.error (.signed err), i)
      | (.ok bytes, i) => (.ok (.reply ⟨source, bytes⟩), i)

def receiveResponse (i : Ingress A) (peer : PeerId) (frame : Bytes) (source : A) (r : Readings) :
    SignedRouteReceive A × Ingress A :=
  match parseControl frame with
  | none => (.ignored, i)
  | some (recipient, nonce) =>
    if recipient ≠ i.boundary.localPeer C then (.ignored, i)
    else if !i.routes.expects peer source nonce r.now then (.ignored, i)
    else (.confirmed peer, { i with routes := i.routes.confirm peer source })

def receiveRouted (i : Ingress A) (peer : PeerId) (frame : Bytes) (r : Readings) :
    SignedRouteReceive A × Ingress A :=
  if frame.head? = some missingReportTag ∨ frame.head? = some completionAckTag then
    match parseRecoveryControl frame (maxMissingRangesForBudget i.boundary.payloadBudget 0 65535) with
    | .ok (some control) => (.recovery peer control, i)
    | _ => (.ignored, i)
  else
    let accepted := i.reassembler.accept hash peer frame r.now
    (.framed peer accepted.2, { i with reassembler := accepted.1 })

def receiveFrame (i : Ingress A) (peer : PeerId) (frame : Bytes) (source : A) (r : Readings) :
    Except SignedRouteError (SignedRouteReceive A) × Ingress A :=
  if frame.head? = some challengeTag then i.receiveChallenge C peer frame source r
  else if frame.head? = some responseTag then
    let received := i.receiveResponse C peer frame source r
    (.ok received.1, received.2)
  else if i.routes.route peer = some source then
    let received := i.receiveRouted hash peer frame r
    (.ok received.1, received.2)
  else
    match i.startProbe C peer source r with
    | (.error err, i) => (.error err, i)
    | (.ok challenge, i) => (.ok (.probing peer challenge), i)

def receive (i : Ingress A) (datagram : Bytes) (source : A) (peerState : PeerId → Bool × Nat)
    (r : Readings) : Except SignedRouteError (SignedRouteReceive A) × Ingress A :=
  match i.boundary.open C peerState r.wallMs datagram with
  | (.error err, boundary) => (.error (.signed err), { i with boundary := boundary })
  | (.ok (peer, frame), boundary) =>
    { i with boundary := boundary }.receiveFrame C hash peer frame source r

end Ingress

theorem parseControl_eq_some (h : parseControl (kind :: body) = some (recipient, nonce)) :
    kind :: body = encodeControl kind recipient nonce := by
  unfold parseControl at h
  split at h
  · next hlen =>
    cases h
    have hbody : body.length = 64 := Nat.succ.inj hlen
    have hnonce : body.drop 32 = (body.drop 32).take 32 := by
      rw [List.take_of_length_le]
      rw [List.length_drop]
      omega
    change kind :: body = kind :: (body.take 32 ++ (body.drop 32).take 32)
    rw [← hnonce, List.take_append_drop]
  · cases h

/-- Two boundaries that differ only in their counters and replay windows. -/
structure Boundary.Alike (b b' : Boundary) : Prop where
  authenticator : b'.authenticator = b.authenticator
  signer : b'.signer = b.signer
  allowlist : b'.allowlist = b.allowlist
  mtu : b'.mtu = b.mtu

namespace Boundary

theorem Alike.refl (b : Boundary) : b.Alike b := ⟨rfl, rfl, rfl, rfl⟩

theorem Alike.trans {b b' b'' : Boundary} (h : b.Alike b') (h' : b'.Alike b'') : b.Alike b'' :=
  ⟨h'.authenticator.trans h.authenticator, h'.signer.trans h.signer,
    h'.allowlist.trans h.allowlist, h'.mtu.trans h.mtu⟩

variable {C : Primitives}

theorem Alike.localPeer {b b' : Boundary} (h : b.Alike b') : b'.localPeer C = b.localPeer C := by
  rw [Boundary.localPeer, h.signer, Boundary.localPeer]

theorem Alike.payloadBudget {b b' : Boundary} (h : b.Alike b') :
    b'.payloadBudget = b.payloadBudget := by
  rw [Boundary.payloadBudget, h.mtu, h.authenticator, Boundary.payloadBudget]

theorem Alike.authenticate {b b' : Boundary} (h : b.Alike b') (datagram : Bytes) :
    b'.authenticate C datagram = b.authenticate C datagram := by
  rw [Boundary.authenticate, h.allowlist, h.mtu, h.authenticator, Boundary.authenticate]

theorem alike_seal (b : Boundary) (call : SealCall) : b.Alike (b.seal C call).2 := by
  unfold «seal»
  split
  · exact .refl b
  · split <;> exact ⟨rfl, rfl, rfl, rfl⟩

theorem alike_open (b : Boundary) (peerState : PeerId → Bool × Nat) (now : Nat)
    (datagram : Bytes) : b.Alike (b.open C peerState now datagram).2 := by
  unfold «open»
  split
  · exact .refl b
  · simp only
    split
    · exact .refl b
    · exact ⟨rfl, rfl, rfl, rfl⟩

end Boundary

namespace Ingress

variable {A : Type} [DecidableEq A] {C : Primitives} {hash : Bytes → TransferId} {i : Ingress A}

omit [DecidableEq A] in
theorem sealFrame_alike (i : Ingress A) (r : Readings) (frame : Bytes) :
    i.boundary.Alike (i.sealFrame C r frame).2.boundary :=
  Boundary.alike_seal i.boundary _

def quietOutcome : Except SignedRouteError (SignedRouteReceive A) → Bool
  | .error _ | .ok (.probing _ none) | .ok (.reply _) | .ok .ignored => true
  | _ => false

/-- What the directory does on an authenticated frame, beside the outcome it reports. -/
inductive Effect (C : Primitives) (hash : Bytes → TransferId) (i : Ingress A) (peer : PeerId)
    (frame : Bytes) (source : A) (r : Readings) :
    Except SignedRouteError (SignedRouteReceive A) → Ingress A → Prop where
  | quiet (hout : quietOutcome out = true)
    (hroutes : i'.routes = i.routes ∨ i'.routes = i.routes.purge r.now)
    (hreassembler : i'.reassembler = i.reassembler) (halike : i.boundary.Alike i'.boundary) :
    Effect C hash i peer frame source r out i'
  | challenged (hseal : (i.boundary.seal C (r.call i.boundary
      (encodeControl challengeTag peer r.nonce))).1 = .ok bytes)
    (hroutes : i'.routes = (i.routes.purge r.now).challenge peer source r.nonce r.now)
    (hreassembler : i'.reassembler = i.reassembler) (halike : i.boundary.Alike i'.boundary) :
    Effect C hash i peer frame source r (.ok (.probing peer (some ⟨source, bytes⟩))) i'
  | confirmed (hframe : frame = encodeControl responseTag (i.boundary.localPeer C) nonce)
    (hexpects : i.routes.expects peer source nonce r.now = true) :
    Effect C hash i peer frame source r (.ok (.confirmed peer))
      { i with routes := i.routes.confirm peer source }
  | recovery (hroute : i.routes.route peer = some source) (control : RecoveryControl) :
    Effect C hash i peer frame source r (.ok (.recovery peer control)) i
  | framed (hroute : i.routes.route peer = some source) :
    Effect C hash i peer frame source r
      (.ok (.framed peer (i.reassembler.accept hash peer frame r.now).2))
      { i with reassembler := (i.reassembler.accept hash peer frame r.now).1 }

theorem effect_ignored {peer : PeerId} {frame : Bytes} {source : A} {r : Readings} :
    Effect C hash i peer frame source r (.ok .ignored) i :=
  .quiet rfl (.inl rfl) rfl (.refl _)

theorem effect_startProbe (i : Ingress A) (peer : PeerId) (frame : Bytes) (source : A)
    (r : Readings) :
    Effect C hash i peer frame source r
      ((i.startProbe C peer source r).1.map (SignedRouteReceive.probing peer))
      (i.startProbe C peer source r).2 := by
  have halike := @sealFrame_alike A C { i with routes := i.routes.purge r.now } r
    (encodeControl challengeTag peer r.nonce)
  unfold startProbe
  simp only
  split
  · exact .quiet rfl (.inr rfl) rfl (.refl _)
  · split
    · next heq =>
      obtain ⟨_, rfl⟩ := Prod.mk.inj heq
      exact .quiet rfl (.inr rfl) rfl halike
    · next heq =>
      obtain ⟨hok, rfl⟩ := Prod.mk.inj heq
      exact .challenged hok rfl rfl halike

theorem effect_receiveChallenge (i : Ingress A) (peer : PeerId) (frame : Bytes) (source : A)
    (r : Readings) :
    Effect C hash i peer frame source r (i.receiveChallenge C peer frame source r).1
      (i.receiveChallenge C peer frame source r).2 := by
  unfold receiveChallenge
  split
  · exact effect_ignored
  next recipient nonce hparse =>
  split
  · exact effect_ignored
  have halike := @sealFrame_alike A C i r (encodeControl responseTag peer nonce)
  split
  all_goals
    next heq =>
    obtain ⟨_, rfl⟩ := Prod.mk.inj heq
    exact .quiet rfl (.inl rfl) rfl halike

theorem effect_receiveResponse (i : Ingress A) (peer : PeerId) (source : A) (r : Readings)
    (body : Bytes) :
    Effect C hash i peer (responseTag :: body) source r
      (.ok (i.receiveResponse C peer (responseTag :: body) source r).1)
      (i.receiveResponse C peer (responseTag :: body) source r).2 := by
  unfold receiveResponse
  split
  · exact effect_ignored
  next recipient nonce hparse =>
  split
  · exact effect_ignored
  next hlocal =>
  split
  · exact effect_ignored
  next hexpects =>
  rw [Bool.not_eq_true', Bool.not_eq_false] at hexpects
  have hframe := parseControl_eq_some hparse
  rw [not_not.1 hlocal] at hframe
  exact .confirmed hframe hexpects

theorem effect_receiveRouted (i : Ingress A) (peer : PeerId) (frame : Bytes) (source : A)
    (r : Readings) (hroute : i.routes.route peer = some source) :
    Effect C hash i peer frame source r (.ok (i.receiveRouted hash peer frame r).1)
      (i.receiveRouted hash peer frame r).2 := by
  unfold receiveRouted
  split
  · split
    · exact .recovery hroute _
    · exact effect_ignored
  · exact .framed hroute

theorem effect_receiveFrame (i : Ingress A) (peer : PeerId) (frame : Bytes) (source : A)
    (r : Readings) :
    Effect C hash i peer frame source r (i.receiveFrame C hash peer frame source r).1
      (i.receiveFrame C hash peer frame source r).2 := by
  unfold receiveFrame
  split
  · exact effect_receiveChallenge i peer frame source r
  split
  · next hhead =>
    obtain ⟨body, rfl⟩ := List.head?_eq_some_iff.1 hhead
    exact effect_receiveResponse i peer source r body
  split
  · next hroute => exact effect_receiveRouted i peer frame source r hroute
  · have heffect := @effect_startProbe A _ C hash i peer frame source r
    split
    all_goals
      next heq =>
      rw [heq] at heffect
      exact heffect

/-- A datagram is dropped by the boundary, or has the effect of its frame under its signer. -/
theorem receive_cases (i : Ingress A) (datagram : Bytes) (source : A)
    (peerState : PeerId → Bool × Nat) (r : Readings) :
    (∃ err, (i.boundary.open C peerState r.wallMs datagram).1 = .error err ∧
      (i.receive C hash datagram source peerState r).1 = .error (.signed err) ∧
      (i.receive C hash datagram source peerState r).2 =
        { i with boundary := (i.boundary.open C peerState r.wallMs datagram).2 }) ∨
    ∃ peer frame, (i.boundary.open C peerState r.wallMs datagram).1 = .ok (peer, frame) ∧
      Effect C hash { i with boundary := (i.boundary.open C peerState r.wallMs datagram).2 } peer frame
        source r (i.receive C hash datagram source peerState r).1
        (i.receive C hash datagram source peerState r).2 := by
  unfold receive
  split
  · next err boundary heq =>
    rw [heq]
    exact .inl ⟨err, rfl, rfl, rfl⟩
  · next peer frame boundary heq =>
    rw [heq]
    exact .inr ⟨peer, frame, rfl, effect_receiveFrame _ peer frame source r⟩

theorem receive_alike (i : Ingress A) (datagram : Bytes) (source : A)
    (peerState : PeerId → Bool × Nat) (r : Readings) :
    i.boundary.Alike (i.receive C hash datagram source peerState r).2.boundary := by
  have hopen := @Boundary.alike_open C i.boundary peerState r.wallMs datagram
  rcases i.receive_cases datagram source peerState r with
    ⟨_, _, _, h⟩ | ⟨peer, frame, _, heffect⟩
  · rw [h]
    exact hopen
  · generalize i.receive C hash datagram source peerState r = received at heffect
    obtain ⟨out, i'⟩ := received
    simp only at heffect ⊢
    cases heffect with
    | quiet _ _ _ halike => exact hopen.trans halike
    | challenged _ _ _ halike => exact hopen.trans halike
    | confirmed => exact hopen
    | recovery => exact hopen
    | framed => exact hopen

end Ingress

end Reconcile
