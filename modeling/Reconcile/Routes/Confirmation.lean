import Reconcile.Lib.Transition
import Reconcile.Routes

namespace Reconcile
open Lib
set_option autoImplicit true

inductive RouteEvent (A : Type) where
  | receive (source : A) (datagram : Bytes) (peerState : PeerId → Bool × Nat) (r : Readings)
  | sealTo (peer : PeerId) (r : Readings) (frame : Bytes)
  | decommission (peer : PeerId)

inductive RouteOutcome (A : Type) where
  | received (result : Except SignedRouteError (SignedRouteReceive A))
  | sealed (result : Except SignedRouteError (RoutedDatagram A))
  | decommissioned

namespace RouteEvent

variable {A : Type}

def issues (peer : PeerId) : RouteEvent A × RouteOutcome A → Bool
  | (_, .received (.ok (.probing p (some _)))) => p = peer
  | _ => false

def challengeNonce : RouteEvent A × RouteOutcome A → Option Nonce
  | (.receive _ _ _ r, .received (.ok (.probing _ (some _)))) => some r.nonce
  | _ => none

end RouteEvent

def challengeNonces {A : Type} (tr : List (RouteEvent A × RouteOutcome A)) : List Nonce :=
  tr.filterMap RouteEvent.challengeNonce

namespace Ingress

variable {A : Type} [DecidableEq A] (C : Primitives) (hash : Bytes → TransferId)

def handle (i : Ingress A) : RouteEvent A → RouteOutcome A × Ingress A
  | .receive source datagram peerState r =>
    let received := i.receive C hash datagram source peerState r
    (.received received.1, received.2)
  | .sealTo peer r frame =>
    let sealed := i.sealTo C peer r frame
    (.sealed sealed.1, sealed.2)
  | .decommission peer => (.decommissioned, { i with routes := i.routes.decommission peer })

def Challenged (me peer : PeerId) (c : PendingRoute A) (x : RouteEvent A × RouteOutcome A) : Prop :=
  ∃ datagram peerState r bytes,
    x = (.receive c.address datagram peerState r,
      .received (.ok (.probing peer (some ⟨c.address, bytes⟩)))) ∧
    r.nonce = c.nonce ∧ r.now = c.issued ∧
    ∃ (b : Boundary) (call : SealCall), b.localPeer C = me ∧
      call.frame = encodeControl challengeTag peer c.nonce ∧ (b.seal C call).1 = .ok bytes

def Outstanding (me peer : PeerId) (c : PendingRoute A) (tr : List (RouteEvent A × RouteOutcome A)) :
    Prop :=
  ∃ tr₁ x tr₂, tr = tr₁ ++ x :: tr₂ ∧ Challenged C me peer c x ∧
    ∀ z ∈ tr₂, RouteEvent.issues peer z = false

/-- A response to the newest challenge for the peer, from the address challenged and in time. -/
def Answered (b : Boundary) (ttl : Nat) (peer : PeerId) (a : A)
    (tr : List (RouteEvent A × RouteOutcome A)) : Prop :=
  ∃ tr₁ x tr₂ y tr₃ c, tr = tr₁ ++ x :: (tr₂ ++ y :: tr₃) ∧
    Challenged C (b.localPeer C) peer c x ∧ c.address = a ∧
    (∀ z ∈ tr₂, RouteEvent.issues peer z = false) ∧
    ∃ datagram peerState r payload,
      y = (.receive a datagram peerState r, .received (.ok (.confirmed peer))) ∧
      b.authenticate C datagram = .ok (peer, payload) ∧
      payload.bytes = encodeControl responseTag (b.localPeer C) c.nonce ∧ r.now - c.issued < ttl

/-- What the tables of a directory stand for. -/
structure Grounded (b : Boundary) (ttl : Nat) (tr : List (RouteEvent A × RouteOutcome A))
    (i : Ingress A) : Prop where
  alike : b.Alike i.boundary
  lifetime : i.routes.challengeTtl = ttl
  pending : ∀ peer c, i.routes.pending.lookup peer = some c →
    Outstanding C (b.localPeer C) peer c tr
  confirmed : ∀ peer a, i.routes.route peer = some a → Answered C b ttl peer a tr

variable {C hash}

omit [DecidableEq A] in
theorem Outstanding.snoc {tr : List (RouteEvent A × RouteOutcome A)}
    (h : Outstanding C me peer c tr) (hy : RouteEvent.issues peer y = false) :
    Outstanding C me peer c (tr ++ [y]) := by
  obtain ⟨tr₁, x, tr₂, rfl, hx, hz⟩ := h
  refine ⟨tr₁, x, tr₂ ++ [y], List.append_assoc .., hx, ?_⟩
  intro z hin
  rcases List.mem_append.1 hin with hin | hin
  · exact hz z hin
  · rw [List.mem_singleton.1 hin]
    exact hy

omit [DecidableEq A] in
theorem Answered.snoc {tr : List (RouteEvent A × RouteOutcome A)} (h : Answered C b ttl peer a tr)
    (y : RouteEvent A × RouteOutcome A) : Answered C b ttl peer a (tr ++ [y]) := by
  obtain ⟨tr₁, x, tr₂, z, tr₃, c, rfl, h⟩ := h
  refine ⟨tr₁, x, tr₂, z, tr₃ ++ [y], c, ?_, h⟩
  rw [List.append_assoc, List.cons_append, List.append_assoc, List.cons_append]

omit [DecidableEq A] in
/-- A step that leaves every entry of the tables as it is, or drops it, and challenges nobody. -/
theorem Grounded.keep {tr : List (RouteEvent A × RouteOutcome A)} {i i' : Ingress A}
    (h : Grounded C b ttl tr i) (halike : i.boundary.Alike i'.boundary)
    (httl : i'.routes.challengeTtl = i.routes.challengeTtl)
    (hpending : ∀ peer c, i'.routes.pending.lookup peer = some c →
      i.routes.pending.lookup peer = some c ∧ RouteEvent.issues peer y = false)
    (hconfirmed : ∀ peer a, i'.routes.route peer = some a → i.routes.route peer = some a) :
    Grounded C b ttl (tr ++ [y]) i' where
  alike := h.alike.trans halike
  lifetime := httl.trans h.lifetime
  pending := fun peer c hc =>
    (h.pending peer c (hpending peer c hc).1).snoc (hpending peer c hc).2
  confirmed := fun peer a ha => (h.confirmed peer a (hconfirmed peer a ha)).snoc y

omit [DecidableEq A] in
theorem issues_quiet {e : RouteEvent A} {out : Except SignedRouteError (SignedRouteReceive A)}
    (h : quietOutcome out = true) (peer : PeerId) :
    RouteEvent.issues peer (e, .received out) = false := by
  cases out with
  | error err => rfl
  | ok result =>
    cases result with
    | probing p challenge =>
      cases challenge with
      | none => rfl
      | some d => cases h
    | _ => rfl

omit [DecidableEq A] in
theorem lookup_purge {routes : SignedPeerRoutes A}
    (h : (routes.purge now).pending.lookup peer = some c) : routes.pending.lookup peer = some c := by
  rw [SignedPeerRoutes.purge, HashMap.lookup_retain] at h
  exact (Option.filter_eq_some_iff.1 h).1

theorem Grounded.effect {tr : List (RouteEvent A × RouteOutcome A)} {i i' : Ingress A}
    (h : Grounded C b ttl tr i) (he : Effect C hash i peer frame source r out i')
    (hauth : b.authenticate C datagram = .ok (peer, payload)) (hframe : payload.bytes = frame) :
    Grounded C b ttl (tr ++ [(.receive source datagram peerState r, .received out)]) i' := by
  cases he with
  | quiet hout hroutes _ halike =>
    have hquiet := @issues_quiet A (.receive source datagram peerState r) out hout
    rcases hroutes with hr | hr
    · refine h.keep halike (by rw [hr]) ?_ (by rw [hr]; exact fun _ _ ha => ha)
      intro p c hc
      rw [hr] at hc
      exact ⟨hc, hquiet p⟩
    · refine h.keep halike (by rw [hr]; rfl) ?_ (by rw [hr]; exact fun _ _ ha => ha)
      intro p c hc
      rw [hr] at hc
      exact ⟨lookup_purge hc, hquiet p⟩
  | @challenged bytes _ hseal hroutes _ halike =>
    refine ⟨h.alike.trans halike, ?_, ?_, ?_⟩
    · rw [hroutes]
      exact h.lifetime
    · intro p c hc
      rw [hroutes, SignedPeerRoutes.challenge, HashMap.lookup_insert_eq] at hc
      split at hc
      · next hp =>
        -- the new challenge is the last step of the trace
        cases hc
        cases hp
        refine ⟨tr, _, [], rfl, ⟨datagram, peerState, r, bytes, rfl, rfl, rfl, i.boundary, _, ?_, rfl,
          hseal⟩, fun z hz => absurd hz List.not_mem_nil⟩
        exact h.alike.localPeer
      · next hp => exact (h.pending p c (lookup_purge hc)).snoc (decide_eq_false (Ne.symm hp))
    · intro p a ha
      rw [hroutes] at ha
      exact (h.confirmed p a ha).snoc _
  | @confirmed nonce hcontrol hexpects =>
    rw [SignedPeerRoutes.expects, Option.any_eq_true] at hexpects
    obtain ⟨c, hc, hmatch⟩ := hexpects
    simp only [Bool.and_eq_true, decide_eq_true_eq, SignedPeerRoutes.live] at hmatch
    obtain ⟨⟨haddress, hnonce⟩, hlive⟩ := hmatch
    refine ⟨h.alike, h.lifetime, ?_, ?_⟩
    · intro p c hp
      simp only [SignedPeerRoutes.confirm, HashMap.lookup_erase_eq] at hp
      split at hp
      · cases hp
      · exact (h.pending p c hp).snoc rfl
    · intro p a ha
      simp only [SignedPeerRoutes.route, SignedPeerRoutes.confirm, HashMap.lookup_insert_eq] at ha
      split at ha
      · next hp =>
        cases ha
        cases hp
        obtain ⟨tr₁, x, tr₂, rfl, hx, hz⟩ := h.pending _ c hc
        refine ⟨tr₁, x, tr₂, _, [], c, List.append_assoc .., hx, haddress, hz, datagram, peerState, r,
          payload, rfl, hauth, ?_, h.lifetime ▸ hlive⟩
        rw [hframe, hcontrol, hnonce, h.alike.localPeer]
      · exact (h.confirmed p a ha).snoc _
  | recovery _ control =>
    exact h.keep (.refl _) rfl (fun _ _ hc => ⟨hc, rfl⟩) fun _ _ ha => ha
  | framed => exact h.keep (.refl _) rfl (fun _ _ hc => ⟨hc, rfl⟩) fun _ _ ha => ha

theorem Grounded.handle {tr : List (RouteEvent A × RouteOutcome A)} {i : Ingress A}
    (h : Grounded C b ttl tr i) (e : RouteEvent A) :
    Grounded C b ttl (tr ++ [(e, (i.handle C hash e).1)]) (i.handle C hash e).2 := by
  cases e with
  | receive source datagram peerState r =>
    have halike := @Boundary.alike_open C i.boundary peerState r.wallMs datagram
    rcases @receive_cases A _ C hash i datagram source peerState r with
      ⟨err, _, hout, hi⟩ | ⟨peer, frame, hopen, heffect⟩
    · simp only [Ingress.handle, hout, hi]
      exact h.keep halike rfl (fun _ _ hc => ⟨hc, rfl⟩) fun _ _ ha => ha
    · obtain ⟨payload, hauth, hframe, _⟩ := Boundary.open_eq_ok hopen
      rw [h.alike.authenticate] at hauth
      have hopened : Grounded C b ttl tr
          { i with boundary := (i.boundary.open C peerState r.wallMs datagram).2 } :=
        ⟨h.alike.trans halike, h.lifetime, h.pending, h.confirmed⟩
      exact hopened.effect heffect hauth hframe
  | sealTo peer r frame =>
    simp only [Ingress.handle, sealTo]
    split
    · exact h.keep (.refl _) rfl (fun _ _ hc => ⟨hc, rfl⟩) fun _ _ ha => ha
    · have halike := @sealFrame_alike A C i r frame
      split
      all_goals
        next heq =>
        obtain ⟨_, rfl⟩ := Prod.mk.inj heq
        exact h.keep halike rfl (fun _ _ hc => ⟨hc, rfl⟩) fun _ _ ha => ha
  | decommission peer =>
    refine h.keep (.refl _) rfl ?_ ?_
    · intro p c hc
      simp only [Ingress.handle, SignedPeerRoutes.decommission, HashMap.lookup_erase_eq] at hc
      split at hc
      · cases hc
      · exact ⟨hc, rfl⟩
    · intro p a ha
      simp only [Ingress.handle, SignedPeerRoutes.route, SignedPeerRoutes.decommission,
        HashMap.lookup_erase_eq] at ha
      split at ha
      · cases ha
      · exact ha

theorem grounded_of_traces {b : Boundary} {reassembler : Reassembler PeerId}
    (h : Traces (handle C hash) ⟨{ maxPeers := maxPeers, challengeTtl := ttl }, b, reassembler⟩ tr i) :
    Grounded C b ttl tr (i : Ingress A) := by
  refine h.invariant (Grounded C b ttl) ?_ fun _ _ e hg => hg.handle e
  refine ⟨.refl b, rfl, ?_, ?_⟩
  · intro peer c hc
    cases hc
  · intro peer a ha
    cases ha

omit [DecidableEq A] in
/-- With distinct nonces, no earlier challenge used that of a later one. -/
theorem nonce_fresh {tr : List (RouteEvent A × RouteOutcome A)}
    (h : (challengeNonces (tr ++ x :: tr')).Nodup) (hx : Challenged C me peer c x) :
    c.nonce ∉ challengeNonces tr := by
  obtain ⟨datagram, peerState, r, bytes, rfl, hnonce, _⟩ := hx
  rw [challengeNonces, List.filterMap_append, List.nodup_append] at h
  intro hin
  exact h.2.2 _ hin _ List.mem_cons_self hnonce.symm

/-- In every run of a directory a confirmed route was challenged with a fresh nonce, and the peer
answered that challenge from there, in time and before any newer challenge. Only frames from a
confirmed route reach the reassembler or the recovery control. -/
theorem route_confirmed {b : Boundary} {reassembler : Reassembler PeerId}
    {tr : List (RouteEvent A × RouteOutcome A)}
    (h : Traces (handle C hash) ⟨{ maxPeers := maxPeers, challengeTtl := ttl }, b, reassembler⟩ tr i)
    (hnonces : (challengeNonces tr).Nodup) (history : PeerId → List (Boundary × SealCall))
    (hsigner : ∀ peer, ∀ c ∈ history peer, c.1.localPeer C = peer)
    (hunforged : ∀ source datagram peerState r out,
      (RouteEvent.receive source datagram peerState r, out) ∈ tr →
        ∀ peer, Boundary.Unforged C (history peer) peer datagram) :
    (∀ peer a, i.routes.route peer = some a → ∃ tr₁ x tr₂ y tr₃ c,
      tr = tr₁ ++ x :: (tr₂ ++ y :: tr₃) ∧ Challenged C (b.localPeer C) peer c x ∧ c.address = a ∧
      c.nonce ∉ challengeNonces tr₁ ∧ (∀ z ∈ tr₂, RouteEvent.issues peer z = false) ∧
      ∃ datagram peerState r payload,
        y = (.receive a datagram peerState r, .received (.ok (.confirmed peer))) ∧
        b.authenticate C datagram = .ok (peer, payload) ∧
        payload.bytes = encodeControl responseTag (b.localPeer C) c.nonce ∧
        datagram ∈ Boundary.sealedDatagrams C (history peer) ∧ r.now - c.issued < ttl) ∧
    ∀ datagram source peerState r,
      let received := i.receive C hash datagram source peerState r
      (∀ peer report, received.1 = .ok (.framed peer report) → i.routes.route peer = some source) ∧
      (∀ peer control, received.1 = .ok (.recovery peer control) →
        i.routes.route peer = some source) ∧
      (received.2.reassembler ≠ i.reassembler →
        ∃ peer report, received.1 = .ok (.framed peer report)) := by
  have hg := grounded_of_traces h
  constructor
  · intro peer a ha
    obtain ⟨tr₁, x, tr₂, y, tr₃, c, rfl, hx, haddress, hnewer, datagram, peerState, r, payload, rfl,
      hauth, hcontrol, hlive⟩ := hg.confirmed peer a ha
    refine ⟨tr₁, x, tr₂, _, tr₃, c, rfl, hx, haddress, nonce_fresh hnonces hx, hnewer, datagram,
      peerState, r, payload, rfl, hauth, hcontrol, ?_, hlive⟩
    refine Boundary.mem_sealedDatagrams (hsigner peer) ?_ hauth
    refine hunforged a datagram peerState r (.received (.ok (.confirmed peer))) ?_ peer
    exact List.mem_append_right _ (List.mem_cons_of_mem _ (List.mem_append_right _ List.mem_cons_self))
  · intro datagram source peerState r
    rcases @receive_cases A _ C hash i datagram source peerState r with
      ⟨err, _, hout, hi⟩ | ⟨signer, frame, _, heffect⟩
    · simp only [hout, hi]
      refine ⟨?_, ?_, fun hne => absurd rfl hne⟩
      · rintro _ _ ⟨⟩
      · rintro _ _ ⟨⟩
    · generalize hreceived : i.receive C hash datagram source peerState r = received at heffect
      obtain ⟨out, i'⟩ := received
      cases heffect with
      | quiet hout _ hreassembler _ =>
        refine ⟨?_, ?_, fun hne => absurd hreassembler hne⟩
        · rintro _ _ rfl
          cases hout
        · rintro _ _ rfl
          cases hout
      | challenged _ _ hreassembler _ =>
        refine ⟨?_, ?_, fun hne => absurd hreassembler hne⟩
        · rintro _ _ ⟨⟩
        · rintro _ _ ⟨⟩
      | confirmed _ _ =>
        refine ⟨?_, ?_, fun hne => absurd rfl hne⟩
        · rintro _ _ ⟨⟩
        · rintro _ _ ⟨⟩
      | recovery hroute _ =>
        refine ⟨?_, ?_, fun hne => absurd rfl hne⟩
        · rintro _ _ ⟨⟩
        · rintro _ _ ⟨⟩
          exact hroute
      | framed hroute =>
        refine ⟨?_, ?_, fun _ => ⟨signer, _, rfl⟩⟩
        · rintro _ _ ⟨⟩
          exact hroute
        · rintro _ _ ⟨⟩

def readingsAt (now : Nat) (nonce : Nonce) : Readings where
  now := now
  wallMs := 1000
  nonce := nonce
  sealMs _ := ⟨1000, Boundary.second_lt⟩
  aeadNonce _ := Boundary.zeros 24

def nines : Nonce := ⟨List.replicate 32 9, List.length_replicate⟩

def nine : Ingress Nat where
  routes := { maxPeers := 4, challengeTtl := 5000 }
  boundary := { Boundary.mirror with signer := nines }
  reassembler := .forIdentity ({} : FramingConfig).reassemblyLimits

/-- The peer says hello and answers the challenge it gets. -/
def helloCall : SealCall := ⟨1000, Boundary.second_lt, Boundary.zeros 24, [0, 0]⟩

def answerCall : SealCall :=
  ⟨1000, Boundary.second_lt, Boundary.zeros 24, encodeControl responseTag nines nines⟩

def answering : Boundary := Boundary.mirror.advance helloCall

def known (_ : PeerId) : Bool × Nat := (true, 0)

def noHash (_ : Bytes) : TransferId := Boundary.zeros 32

def spoken (peer : PeerId) : List (Boundary × SealCall) :=
  if peer = Boundary.zeros 32 then [(Boundary.mirror, helloCall), (answering, answerCall)] else []

def datagramOf (b : Boundary) (call : SealCall) : Bytes :=
  (b.seal Boundary.unchecked call).1.toOption.getD []

def hello : RouteEvent Nat :=
  .receive 7 (datagramOf Boundary.mirror helloCall) known (readingsAt 0 nines)

def answer : RouteEvent Nat :=
  .receive 7 (datagramOf answering answerCall) known (readingsAt 10 nines)

theorem seal_datagramOf {b : Boundary} {call : SealCall} (hword : b.mtu < 2 ^ 32)
    (hfits : call.frame.length ≤ b.payloadBudget) :
    (b.seal Boundary.unchecked call).1 = .ok (datagramOf b call) := by
  rw [datagramOf, Boundary.seal_of_fits (Boundary.inner_lt_of_mtu hword hfits) hfits]
  rfl

theorem route_confirmed_hello : ∃ tr i c,
    Traces (handle Boundary.unchecked noHash) nine tr i ∧
      i.routes.route (Boundary.zeros 32) = some 7 ∧ c.address = 7 ∧
      (∃ x ∈ tr, Challenged Boundary.unchecked nines (Boundary.zeros 32) c x) ∧
      ∃ datagram ∈ Boundary.sealedDatagrams Boundary.unchecked (spoken (Boundary.zeros 32)),
        ∃ payload, nine.boundary.authenticate Boundary.unchecked datagram =
          .ok (Boundary.zeros 32, payload) ∧
          payload.bytes = encodeControl responseTag nines c.nonce := by
  have htraces := (@Traces.start _ _ _ (handle Boundary.unchecked noHash) nine).snoc hello
    |>.snoc answer
  have hroute : ((nine.handle Boundary.unchecked noHash hello).2.handle Boundary.unchecked noHash
      answer).2.routes.route (Boundary.zeros 32) = some 7 := by decide +kernel
  have hnonces : (challengeNonces ([] ++ [(hello, (nine.handle Boundary.unchecked noHash hello).1)] ++
      [(answer, ((nine.handle Boundary.unchecked noHash hello).2.handle Boundary.unchecked noHash
        answer).1)])).Nodup := by decide +kernel
  have hhello : (Boundary.mirror.seal Boundary.unchecked helloCall).1 =
      .ok (datagramOf Boundary.mirror helloCall) := seal_datagramOf (by decide) (by decide)
  have hanswer : (answering.seal Boundary.unchecked answerCall).1 =
      .ok (datagramOf answering answerCall) := seal_datagramOf (by decide) (by decide)
  have hsigner : ∀ peer, ∀ c ∈ spoken peer, c.1.localPeer Boundary.unchecked = peer := by
    intro peer c hc
    unfold spoken at hc
    split at hc
    · next hp =>
      rcases List.mem_pair.1 hc with rfl | rfl <;> exact hp.symm
    · cases hc
  have hconfirmed := (route_confirmed htraces hnonces spoken hsigner ?_).1 _ _ hroute
  · obtain ⟨tr₁, x, tr₂, y, tr₃, c, htr, hx, haddress, _, _, datagram, _, _, payload, _, hauth, hbytes,
      hsealed, _⟩ := hconfirmed
    refine ⟨_, _, c, htraces, hroute, haddress, ⟨x, ?_, hx⟩, datagram, hsealed, payload, hauth, hbytes⟩
    rw [htr]
    exact List.mem_append_right _ List.mem_cons_self
  · intro source datagram peerState r out hin peer
    rcases List.mem_pair.1 hin with he | he
    · cases he
      exact Boundary.unforged_of_mem List.mem_cons_self hhello peer
    · cases he
      exact Boundary.unforged_of_mem (List.mem_cons_of_mem _ List.mem_cons_self) hanswer peer

end Ingress

end Reconcile
