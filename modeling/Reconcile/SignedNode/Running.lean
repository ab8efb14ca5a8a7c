import Reconcile.Admission
import Reconcile.Framing.Accounting
import Reconcile.Lib.Sorted

namespace Reconcile
open Lib Lib.Action
set_option autoImplicit true

namespace SignedPeerRoutes

variable {A : Type} {routes routes' : SignedPeerRoutes A}

def Named (routes : SignedPeerRoutes A) : Prop :=
  ∀ peer c, routes.confirmed.lookup peer = some c → c.signer = peer

theorem Named.confirm (h : routes.Named) (peer : PeerId) (source : A) :
    (routes.confirm peer source).Named := by
  intro p c hc
  rw [SignedPeerRoutes.confirm, HashMap.lookup_insert_eq] at hc
  split at hc
  · next hp =>
    cases hc
    exact hp.symm
  · exact h p c hc

theorem Named.decommission (h : routes.Named) (peer : PeerId) :
    (routes.decommission peer).Named := by
  intro p c hc
  rw [SignedPeerRoutes.decommission, HashMap.lookup_erase_eq] at hc
  split at hc
  · cases hc
  · exact h p c hc

theorem Named.signers (h : routes.Named) :
    (routes.confirmed.toList.map fun c => c.2.signer) = routes.confirmed.toList.map Prod.fst := by
  apply List.map_congr_left
  rintro ⟨peer, c⟩ hc
  exact h peer c ((HashMap.mem_toList _ _ _).1 hc)

theorem Named.pairwise_confirmedPeers (h : routes.Named) :
    routes.confirmedPeers.Pairwise (· < ·) := by
  rw [confirmedPeers, h.signers]
  exact Sorted.pairwise_lt_mergeSort (f := id) (by simpa using HashMap.keys_toList_nodup _)

theorem Named.mem_confirmedPeers (h : routes.Named) (peer : PeerId) :
    peer ∈ routes.confirmedPeers ↔ routes.confirmed.contains peer = true := by
  rw [confirmedPeers, h.signers, List.mem_mergeSort, HashMap.contains, Option.isSome_iff_exists]
  simp only [← HashMap.mem_toList, List.mem_map, Prod.exists, exists_and_right, exists_eq_right]

theorem length_confirmedPeers (routes : SignedPeerRoutes A) :
    routes.confirmedPeers.length = routes.confirmed.len := by
  rw [confirmedPeers, List.length_mergeSort, List.length_map, HashMap.toList, List.length_map,
    HashMap.len]

theorem Named.confirmedPeers_eq (h : routes.Named) (h' : routes'.Named)
    (he : ∀ peer, routes'.confirmed.contains peer = routes.confirmed.contains peer) :
    routes'.confirmedPeers = routes.confirmedPeers := by
  refine Sorted.eq_of_mem_iff (f := id) h'.pairwise_confirmedPeers h.pairwise_confirmedPeers ?_
  intro peer
  rw [h.mem_confirmedPeers, h'.mem_confirmedPeers, he]

end SignedPeerRoutes

variable {K V A : Type} {E : SignedSuite K V} [LinearOrder K]

theorem Ingress.named_receive [DecidableEq A] {C : Primitives} {hash : Bytes → TransferId}
    {i : Ingress A} (h : i.routes.Named) (datagram : Bytes) (source : A)
    (peerState : PeerId → Bool × Nat) (r : Readings) :
    (i.receive C hash datagram source peerState r).2.routes.Named := by
  rcases i.receive_cases (C := C) datagram source peerState r with
    ⟨_, _, _, he⟩ | ⟨peer, frame, _, heffect⟩
  · rw [he]
    exact h
  · generalize i.receive C hash datagram source peerState r = received at heffect ⊢
    obtain ⟨out, i'⟩ := received
    cases heffect with
    | quiet _ hroutes =>
      rcases hroutes with he | he <;> rw [he] <;> exact h
    | challenged _ hroutes =>
      rw [hroutes]
      exact h
    | confirmed => exact h.confirm peer source
    | recovery => exact h
    | framed => exact h

/-- A datagram reaches the reassembler as one frame, or not at all. -/
theorem Ingress.reassembler_receive [DecidableEq A] {C : Primitives} {hash : Bytes → TransferId}
    (i : Ingress A) (datagram : Bytes) (source : A) (peerState : PeerId → Bool × Nat)
    (r : Readings) :
    (i.receive C hash datagram source peerState r).2.reassembler = i.reassembler ∨
      ∃ peer frame, (i.receive C hash datagram source peerState r).2.reassembler =
        (i.reassembler.accept hash peer frame r.now).1 := by
  rcases @Ingress.receive_cases A _ C hash i datagram source peerState r with
    ⟨_, _, _, he⟩ | ⟨peer, frame, _, heffect⟩
  · rw [he]
    exact .inl rfl
  · generalize i.receive C hash datagram source peerState r = received at heffect ⊢
    obtain ⟨out, i'⟩ := received
    cases heffect with
    | quiet _ _ hreassembler => exact .inl hreassembler
    | challenged _ _ hreassembler => exact .inl hreassembler
    | confirmed => exact .inl rfl
    | recovery => exact .inl rfl
    | framed => exact .inr ⟨peer, frame, rfl⟩

namespace SignedNode

section

variable {γ : Type} {f : SignedNode K V A → γ} (hf : Blind f)
  (hcausal : ∀ s c, f { s with toSignedCausal := c } = f s)
include hf hcausal

theorem keeps_handleVerifiedMessage (peer : PeerId) (message : SignedMessage K V Timestamp)
    (r : Readings) (pt : PhysicalTime) : Keeps f (handleVerifiedMessage E peer message r pt) := by
  intro s
  simp only [handleVerifiedMessage, after_get_bind, after_set_bind]
  split
  · exact hcausal s _
  · exact (keeps_sendEncoded hf peer _ r _).trans (hcausal s _)

theorem keeps_receiveReport (peer : PeerId) (report : ReceiveReport) (r : Readings)
    (pt : PhysicalTime) : Keeps f (receiveReport E peer report r pt) := by
  unfold receiveReport
  split
  · split
    · exact .pure _
    · next message _ =>
      have hmessage := keeps_handleVerifiedMessage (E := E) hf hcausal peer message r pt
      split
      · exact (keeps_routedFrame hf peer r _).bind fun _ => hmessage.bind fun _ => .pure _
      · exact hmessage
  · exact .pure _

theorem after_receive [DecidableEq A] (s : SignedNode K V A) (source : A) (datagram : Bytes)
    (r : Readings) (pt : PhysicalTime) :
    f (after (receive E source datagram r pt) s) = f { s with toIngress :=
      (s.toIngress.receive E.primitives E.transferId datagram source s.peerState r).2 } := by
  simp only [receive, after_get_bind, after_set_bind]
  generalize s.toIngress.receive E.primitives E.transferId datagram source s.peerState r = received
  have hrecovery (t : SignedNode K V A) (recovery : RecoveryBook PeerId) :
      f { t with recovery := recovery } = f t := hf _ _ ⟨_, _, .refl _, rfl⟩
  split
  · rfl
  · rfl
  · rfl
  · rfl
  · exact hrecovery _ _
  · exact keeps_resendMissing hf _ _ _ r _
  · exact hrecovery _ _
  · exact keeps_receiveReport hf hcausal _ _ r pt _

end

def network (s : SignedNode K V A) :
    SignedPeerRoutes A × Reassembler PeerId × HashMap PeerId (Option K) × Nat × Nat :=
  (s.routes, s.reassembler, s.outboundCursors, s.nextPeerIndex, s.boundary.mtu)

omit [LinearOrder K] in
theorem blind_network : Blind (network : SignedNode K V A → _) := by
  rintro s _ ⟨_, _, halike, rfl⟩
  simp only [network, halike.mtu]

theorem network_snapshotNow (s : SignedNode K V A) (backend : Backend K V) :
    (after (snapshotNow backend) s).network = s.network := by
  obtain ⟨g, hg⟩ := s.exists_after_snapshotNow backend
  rw [hg]
  rfl

end SignedNode

def NodeCall.isReconcile : NodeCall K V A → Bool
  | .reconcile _ => true
  | _ => false

namespace SignedNode

variable [DecidableEq A]

/-- A call other than a tick turns no rotation and moves the cursor of no confirmed peer. -/
structure Idles (s s' : SignedNode K V A) : Prop where
  index : s'.nextPeerIndex = s.nextPeerIndex
  mtu : s'.boundary.mtu = s.boundary.mtu
  named : s.routes.Named → s'.routes.Named
  reassembler : s'.reassembler = s.reassembler ∨ ∃ hash peer frame now,
    s'.reassembler = (s.reassembler.accept hash peer frame now).1
  cursors : ∀ peer, s'.routes.confirmed.contains peer = true →
    s'.outboundCursors.lookup peer = s.outboundCursors.lookup peer

omit [LinearOrder K] [DecidableEq A] in
theorem idles_of_network {s s' : SignedNode K V A} (h : s'.network = s.network) : s.Idles s' := by
  simp only [network, Prod.mk.injEq] at h
  obtain ⟨hroutes, hreassembler, hcursors, hindex, hmtu⟩ := h
  exact ⟨hindex, hmtu, fun hn => hroutes ▸ hn, .inl hreassembler, fun _ _ => by rw [hcursors]⟩

theorem idles_step (s : SignedNode K V A) {call : NodeCall K V A} (hc : call.isReconcile = false) :
    s.Idles (s.step E call) := by
  cases call with
  | write w pt =>
    apply idles_of_network
    simp only [step, write, after_get_bind, after_set_bind, after_ofExcept]
    rfl
  | collect key => exact idles_of_network rfl
  | probe endpoint r => exact idles_of_network (keeps_probe blind_network endpoint r s)
  | snapshotNow backend => exact idles_of_network (s.network_snapshotNow backend)
  | reconcile r => cases hc
  | decommission peer =>
    refine ⟨rfl, rfl, fun h => h.decommission peer, .inl rfl, fun p hp => ?_⟩
    have hne : p ≠ peer := by
      rintro rfl
      change HashMap.contains (s.routes.confirmed.erase p) p = true at hp
      rw [HashMap.contains_erase] at hp
      simp at hp
    exact AList.lookup_erase_ne hne
  | receive source datagram r pt =>
    have he := s.after_receive (E := E) blind_network (fun _ _ => rfl) source datagram r pt
    have halike := @Ingress.receive_alike A _ E.primitives E.transferId s.toIngress datagram source
      s.peerState r
    simp only [network, Prod.mk.injEq] at he
    obtain ⟨hroutes, hreassembler, hcursors, hindex, hmtu⟩ := he
    refine ⟨hindex, hmtu.trans halike.mtu, fun hn => ?_, ?_, fun _ _ => ?_⟩
    · change (after (receive E source datagram r pt) s).routes.Named
      rw [hroutes]
      exact Ingress.named_receive hn datagram source s.peerState r
    · rcases @Ingress.reassembler_receive A _ E.primitives E.transferId s.toIngress datagram source
        s.peerState r with hsame | ⟨peer, frame, haccept⟩
      · exact .inl (hreassembler.trans hsame)
      · exact .inr ⟨E.transferId, peer, frame, r.now, hreassembler.trans haccept⟩
    · exact congrArg _ hcursors

/-- What the constructor checked, and what no call changes. -/
structure Running (config : SignedConfig) (s : SignedNode K V A) : Prop where
  framing : s.framing = config.framing
  cap : s.maxFramesPerTick = config.maxFramesPerTick
  mtu : s.boundary.mtu = config.framing.datagramPayloadBudget
  readOnly : s.readOnly = config.readOnly
  configured : s.Configured
  named : s.routes.Named
  accounted : s.reassembler.Accounted
  limits : s.reassembler.limits = config.framing.reassemblyLimits

omit [LinearOrder K] [DecidableEq A] in
theorem Running.nodup {s : SignedNode K V A} (h : s.Running config) :
    s.routes.confirmedPeers.Nodup :=
  Sorted.nodup_of_pairwise (f := id) h.named.pairwise_confirmedPeers

omit [DecidableEq A] in
theorem running_new {s : SignedNode K V A}
    (h₀ : new E config clusterKey signer clock readings loaded = .ok s) : s.Running config := by
  obtain ⟨_, _, boundary, stored, causal, hboundary, hbudget, hvalid, _, hrestore, rfl⟩ :=
    new_eq_ok.1 h₀
  obtain ⟨_, _, _, _, _, rfl⟩ := SignedCausal.restore_eq_ok hrestore
  simp only [validLimits, Bool.and_eq_true, decide_eq_true_eq] at hvalid
  have hmtu : boundary.mtu = config.framing.datagramPayloadBudget := by
    unfold Boundary.new at hboundary
    split at hboundary
    · cases hboundary
    split at hboundary
    · cases hboundary
    · cases hboundary
      rfl
  have hword := hvalid.1.1
  have hcap := hvalid.2.1
  refine ⟨rfl, rfl, hmtu, rfl, ⟨hword, ?_, hcap⟩, ?_, Reassembler.accounted_forIdentity _, rfl⟩
  · rw [not_or, Nat.not_le] at hbudget
    exact hbudget.1
  · intro peer c hc
    cases hc

omit [DecidableEq A] in
/-- A tick changes neither the routes nor the size of a datagram, and of the transfers what it
polls. -/
theorem Running.after_reconcile {s : SignedNode K V A} (h : s.Running config) (r : Readings) :
    (after (reconcile E r) s).routes = s.routes ∧
      (after (reconcile E r) s).boundary.mtu = s.boundary.mtu ∧
      (after (reconcile E r) s).reassembler = (s.polled r.now).1 := by
  apply (yields_reconcile h.configured h.nodup r).after (I := fun t => t.routes = s.routes ∧
    t.boundary.mtu = s.boundary.mtu ∧ t.reassembler = (s.polled r.now).1)
  · intro out t ht
    cases ht with
    | rests _ _ hemits =>
      obtain ⟨_, _, halike, rfl⟩ := hemits
      exact ⟨rfl, halike.mtu, rfl⟩
    | serves _ _ hupdated =>
      obtain ⟨_, _, halike, rfl⟩ := hupdated.serves.advances
      exact ⟨rfl, halike.mtu, rfl⟩
  · intro e t ht
    cases ht with
    | report _ _ hemits =>
      obtain ⟨_, _, halike, rfl⟩ := hemits
      exact ⟨rfl, halike.mtu, rfl⟩
    | update _ _ hinterrupted =>
      obtain ⟨_, _, halike, rfl⟩ := hinterrupted.serves.advances
      exact ⟨rfl, halike.mtu, rfl⟩

omit [LinearOrder K] [DecidableEq A] in
theorem accounted_polled {s : SignedNode K V A} (h : s.reassembler.Accounted) (now : Nat) :
    (s.polled now).1.Accounted ∧ (s.polled now).1.limits = s.reassembler.limits := by
  have hexpire := h.expire now
  have hlimits := Reassembler.limits_expire s.reassembler now
  unfold polled
  split
  · exact ⟨hexpire.pollIdleMissing _ _ _ _ _,
      (Reassembler.limits_pollIdleMissing _ _ _ _ _ _).trans hlimits⟩
  · exact ⟨hexpire, hlimits⟩

theorem Running.step {s : SignedNode K V A} (h : s.Running config) (call : NodeCall K V A) :
    (s.step E call).Running config := by
  obtain ⟨ev, _, hinner⟩ := s.inner_step (E := E) call
  obtain ⟨hcausal, hsettings⟩ := Prod.mk.inj hinner
  simp only [settings, Prod.mk.injEq] at hsettings
  obtain ⟨hframing, hcap, hbudget⟩ := hsettings
  have hreadOnly : (s.step E call).readOnly = s.readOnly := by
    rw [hcausal]
    exact (s.toSignedCausal.roles_step ev).1
  have hnetwork : (s.step E call).boundary.mtu = s.boundary.mtu ∧
      (s.step E call).routes.Named ∧ (s.step E call).reassembler.Accounted ∧
      (s.step E call).reassembler.limits = s.reassembler.limits := by
    cases hc : call.isReconcile with
    | false =>
      have hidles := s.idles_step (E := E) hc
      refine ⟨hidles.mtu, hidles.named h.named, ?_⟩
      rcases hidles.reassembler with he | ⟨hash, peer, frame, now, he⟩ <;> rw [he]
      · exact ⟨h.accounted, rfl⟩
      · exact ⟨h.accounted.accept peer frame now,
          Reassembler.limits_accept hash s.reassembler peer frame now⟩
    | true =>
      cases call with
      | reconcile r =>
        obtain ⟨hroutes, hmtu, hpolled⟩ := h.after_reconcile (E := E) r
        refine ⟨hmtu, ?_⟩
        change (after (reconcile E r) s).routes.Named ∧
          (after (reconcile E r) s).reassembler.Accounted ∧
          (after (reconcile E r) s).reassembler.limits = _
        rw [hroutes, hpolled]
        exact ⟨h.named, accounted_polled h.accounted r.now⟩
      | _ => cases hc
  obtain ⟨hmtu, hnamed, haccounted, hlimits⟩ := hnetwork
  refine ⟨hframing.trans h.framing, hcap.trans h.cap, hmtu.trans h.mtu,
    hreadOnly.trans h.readOnly, ⟨?_, ?_, ?_⟩, hnamed, haccounted, hlimits.trans h.limits⟩
  · rw [hframing]
    exact h.configured.word
  · rw [hbudget]
    exact h.configured.budget
  · rw [hcap]
    exact h.configured.cap

theorem Running.run {s : SignedNode K V A} (h : s.Running config) (calls : List (NodeCall K V A)) :
    (calls.foldl (SignedNode.step E) s).Running config := by
  induction calls generalizing s with
  | nil => exact h
  | cons call calls ih => exact ih (h.step call)

end SignedNode

end Reconcile
