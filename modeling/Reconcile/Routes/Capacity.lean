import Reconcile.Routes.Confirmation
import Mathlib.Data.List.Dedup

namespace Reconcile
open Lib
set_option autoImplicit true

namespace SignedPeerRoutes

variable {A : Type}

def identities (r : SignedPeerRoutes A) : List PeerId :=
  (r.confirmed.keys ++ r.pending.keys).dedup

theorem mem_identities {r : SignedPeerRoutes A} {peer : PeerId} :
    peer ∈ r.identities ↔ r.confirmed.contains peer = true ∨ r.pending.contains peer = true := by
  rw [identities, List.mem_dedup, List.mem_append, HashMap.contains_iff_mem,
    HashMap.contains_iff_mem]
  rfl

theorem length_identities_le (r : SignedPeerRoutes A) :
    r.identities.length ≤ r.confirmed.len + r.pending.len := by
  have hle := (List.dedup_sublist (r.confirmed.keys ++ r.pending.keys)).length_le
  rw [List.length_append] at hle
  simpa only [identities, AList.keys, List.keys, List.length_map, HashMap.len] using hle

def Bounded (r : SignedPeerRoutes A) : Prop := r.identities.length ≤ r.maxPeers

/-- What one operation may do to the tables; every operation at most purges, and then acts on one
peer. -/
inductive Turn [DecidableEq A] (r : SignedPeerRoutes A) : SignedPeerRoutes A → Prop where
  | keep : Turn r r
  | expire (now : Nat) : Turn r (r.purge now)
  | challenge (nonce : Nonce) (hadmits : (r.purge now).declines peer source = false) :
    Turn r ((r.purge now).challenge peer source nonce now)
  | confirm (hexpects : r.expects peer source nonce now = true) : Turn r (r.confirm peer source)
  | decommission (peer : PeerId) : Turn r (r.decommission peer)

theorem Bounded.of_subset {r r' : SignedPeerRoutes A} (h : r.Bounded)
    (hmax : r'.maxPeers = r.maxPeers) (hsub : ∀ p ∈ r'.identities, p ∈ r.identities) :
    r'.Bounded := by
  have hle := (List.nodup_dedup _).length_le_of_subset hsub
  rw [Bounded, hmax]
  exact hle.trans h

theorem mem_identities_purge {r : SignedPeerRoutes A} {p : PeerId}
    (h : p ∈ (r.purge now).identities) : p ∈ r.identities := by
  rw [mem_identities] at h ⊢
  refine h.imp_right ?_
  intro hp
  obtain ⟨c, hc⟩ := Option.isSome_iff_exists.1 hp
  exact Option.isSome_iff_exists.2 ⟨c, Ingress.lookup_purge hc⟩

theorem mem_identities_challenge {r : SignedPeerRoutes A} {p : PeerId}
    (h : p ∈ (r.challenge peer source nonce now).identities) : p = peer ∨ p ∈ r.identities := by
  rw [mem_identities] at h ⊢
  rcases h with h | h
  · exact .inr (.inl h)
  · simp only [challenge, HashMap.contains_insert, Bool.or_eq_true, decide_eq_true_eq] at h
    exact h.imp_right .inr

theorem mem_identities_decommission {r : SignedPeerRoutes A} {p : PeerId}
    (h : p ∈ (r.decommission peer).identities) : p ∈ r.identities := by
  rw [mem_identities] at h ⊢
  simp only [decommission, HashMap.contains_erase, Bool.and_eq_true] at h
  exact h.imp And.left And.left

variable [DecidableEq A]

theorem mem_identities_confirm {r : SignedPeerRoutes A} {p : PeerId}
    (hexpects : r.expects peer source nonce now = true)
    (h : p ∈ (r.confirm peer source).identities) : p ∈ r.identities := by
  rw [mem_identities] at h ⊢
  simp only [confirm, HashMap.contains_insert, HashMap.contains_erase, Bool.or_eq_true,
    Bool.and_eq_true, decide_eq_true_eq] at h
  rcases h with (rfl | h) | ⟨h, _⟩
  · -- the confirmed peer had a challenge outstanding
    rw [expects, Option.any_eq_true] at hexpects
    obtain ⟨c, hc, _⟩ := hexpects
    exact .inr (Option.isSome_iff_exists.2 ⟨c, hc⟩)
  · exact .inl h
  · exact .inr h

/-- A peer the directory does not know is challenged only while the two tables have room. -/
theorem room_of_admits {r : SignedPeerRoutes A} (hadmits : r.declines peer source = false)
    (hnew : peer ∉ r.identities) : r.confirmed.len + r.pending.len < r.maxPeers := by
  rw [mem_identities, not_or, Bool.not_eq_true, Bool.not_eq_true] at hnew
  rw [declines, hnew.1, hnew.2] at hadmits
  simp only [Bool.not_false, Bool.true_and, Bool.or_eq_false_iff, decide_eq_false_iff_not,
    Nat.not_le] at hadmits
  exact hadmits.2

theorem Bounded.challenge {r : SignedPeerRoutes A} (h : r.Bounded)
    (hadmits : r.declines peer source = false) (nonce : Nonce) (now : Nat) :
    (r.challenge peer source nonce now).Bounded := by
  by_cases hnew : peer ∈ r.identities
  · refine h.of_subset rfl ?_
    intro p hp
    rcases mem_identities_challenge hp with rfl | hp
    · exact hnew
    · exact hp
  · -- the sum of the two lengths covers the identities, so a new one still fits
    have hsub : ∀ p ∈ (r.challenge peer source nonce now).identities, p ∈ peer :: r.identities := by
      intro p hp
      exact List.mem_cons.2 (mem_identities_challenge hp)
    have hle := (List.nodup_dedup _).length_le_of_subset hsub
    rw [List.length_cons] at hle
    exact hle.trans ((Nat.succ_le_succ r.length_identities_le).trans (room_of_admits hadmits hnew))

theorem Bounded.turn {r r' : SignedPeerRoutes A} (h : r.Bounded) (ht : r.Turn r') :
    r'.Bounded ∧ r'.maxPeers = r.maxPeers := by
  cases ht with
  | keep => exact ⟨h, rfl⟩
  | expire now => exact ⟨h.of_subset rfl fun _ => mem_identities_purge, rfl⟩
  | @challenge now peer source nonce hadmits =>
    have hpurged : (r.purge now).Bounded := h.of_subset rfl fun _ => mem_identities_purge
    exact ⟨hpurged.challenge hadmits nonce now, rfl⟩
  | confirm hexpects => exact ⟨h.of_subset rfl fun _ => mem_identities_confirm hexpects, rfl⟩
  | decommission peer => exact ⟨h.of_subset rfl fun _ => mem_identities_decommission, rfl⟩

end SignedPeerRoutes

namespace Ingress

open SignedPeerRoutes

variable {A : Type} [DecidableEq A] {C : Primitives} {hash : Bytes → TransferId}

theorem routes_startProbe (i : Ingress A) (peer : PeerId) (source : A) (r : Readings) :
    (i.startProbe C peer source r).2.routes = i.routes.purge r.now ∨
    (i.routes.purge r.now).declines peer source = false ∧
      (i.startProbe C peer source r).2.routes =
        (i.routes.purge r.now).challenge peer source r.nonce r.now := by
  unfold startProbe
  simp only
  split
  · exact .inl rfl
  next hadmits =>
  split
  · next heq =>
    obtain ⟨_, rfl⟩ := Prod.mk.inj heq
    exact .inl rfl
  · next heq =>
    obtain ⟨_, rfl⟩ := Prod.mk.inj heq
    exact .inr ⟨Bool.eq_false_of_not_eq_true hadmits, rfl⟩

theorem turn_startProbe (i : Ingress A) (peer : PeerId) (source : A) (r : Readings) :
    i.routes.Turn (i.startProbe C peer source r).2.routes := by
  rcases routes_startProbe (C := C) i peer source r with h | ⟨hadmits, h⟩
  · rw [h]
    exact .expire r.now
  · rw [h]
    exact .challenge r.nonce hadmits

theorem turn_receiveFrame (i : Ingress A) (peer : PeerId) (frame : Bytes) (source : A)
    (r : Readings) : i.routes.Turn (i.receiveFrame C hash peer frame source r).2.routes := by
  unfold receiveFrame
  split
  · unfold receiveChallenge
    split
    · exact .keep
    split
    · exact .keep
    split
    all_goals
      next heq =>
      obtain ⟨_, rfl⟩ := Prod.mk.inj heq
      exact .keep
  split
  · unfold receiveResponse
    simp only
    split
    · exact .keep
    split
    · exact .keep
    split
    · exact .keep
    next hexpects =>
    rw [Bool.not_eq_true', Bool.not_eq_false] at hexpects
    exact .confirm hexpects
  split
  · unfold receiveRouted
    simp only
    split
    · split <;> exact .keep
    · exact .keep
  · have hturn := turn_startProbe (C := C) i peer source r
    split
    all_goals
      next heq =>
      rw [heq] at hturn
      exact hturn

theorem turn_handle (i : Ingress A) (e : RouteEvent A) :
    i.routes.Turn (i.handle C hash e).2.routes := by
  cases e with
  | receive source datagram peerState r =>
    simp only [handle, receive]
    split
    · exact .keep
    · next peer frame boundary _ =>
      exact turn_receiveFrame { i with boundary := boundary } peer frame source r
  | sealTo peer r frame =>
    simp only [handle, sealTo]
    split
    · exact .keep
    · split
      all_goals
        next heq =>
        obtain ⟨_, rfl⟩ := Prod.mk.inj heq
        exact .keep
  | decommission peer => exact .decommission peer

inductive Reaches (C : Primitives) (hash : Bytes → TransferId) (i₀ : Ingress A) : Ingress A → Prop where
  | start : Reaches C hash i₀ i₀
  | handle (e : RouteEvent A) : Reaches C hash i₀ i → Reaches C hash i₀ (i.handle C hash e).2
  | probe (peer : PeerId) (source : A) (r : Readings) :
    Reaches C hash i₀ i → Reaches C hash i₀ (i.startProbe C peer source r).2
  | expire (now : Nat) :
    Reaches C hash i₀ i → Reaches C hash i₀ { i with routes := i.routes.purge now }

theorem Reaches.bounded {i₀ i : Ingress A} (h : Reaches C hash i₀ i) (h₀ : i₀.routes.Bounded) :
    i.routes.Bounded ∧ i.routes.maxPeers = i₀.routes.maxPeers := by
  induction h with
  | start => exact ⟨h₀, rfl⟩
  | handle e _ ih =>
    obtain ⟨hbounded, hmax⟩ := ih.1.turn (turn_handle _ e)
    exact ⟨hbounded, hmax.trans ih.2⟩
  | probe peer source r _ ih =>
    obtain ⟨hbounded, hmax⟩ := ih.1.turn (turn_startProbe _ peer source r)
    exact ⟨hbounded, hmax.trans ih.2⟩
  | expire now _ ih =>
    obtain ⟨hbounded, hmax⟩ := ih.1.turn (.expire now)
    exact ⟨hbounded, hmax.trans ih.2⟩

/-- A probe keeps the confirmed routes, and the challenges of the other peers that have not
expired. -/
theorem startProbe_keeps (i : Ingress A) (source : A) (r : Readings) (hp : p ≠ peer) :
    (i.startProbe C peer source r).2.routes.confirmed.lookup p = i.routes.confirmed.lookup p ∧
    ∀ c, i.routes.pending.lookup p = some c → i.routes.live r.now c = true →
      (i.startProbe C peer source r).2.routes.pending.lookup p = some c := by
  have hpurged : ∀ c, i.routes.pending.lookup p = some c → i.routes.live r.now c = true →
      (i.routes.purge r.now).pending.lookup p = some c := by
    intro c hc hlive
    rw [purge, HashMap.lookup_retain, hc, Option.filter_some, if_pos hlive]
  rcases routes_startProbe (C := C) i peer source r with h | ⟨_, h⟩
  · rw [h]
    exact ⟨rfl, hpurged⟩
  · rw [h, challenge]
    refine ⟨rfl, ?_⟩
    intro c hc hlive
    rw [HashMap.lookup_insert_eq, if_neg hp]
    exact hpurged c hc hlive

/-- In every run the identities with a route or a challenge stay within `max_peers`, and a probe for
one identity removes neither the confirmed route nor the unexpired challenge of another. -/
theorem directory_within_capacity {maxPeers ttl : Nat} {b : Boundary}
    {reassembler : Reassembler PeerId} {i : Ingress A}
    (h : Reaches C hash ⟨{ maxPeers := maxPeers, challengeTtl := ttl }, b, reassembler⟩ i) :
    i.routes.identities.length ≤ maxPeers ∧
    ∀ peer source r p, p ≠ peer →
      let probed := (i.startProbe C peer source r).2.routes
      probed.confirmed.lookup p = i.routes.confirmed.lookup p ∧
      ∀ c, i.routes.pending.lookup p = some c → i.routes.live r.now c = true →
        probed.pending.lookup p = some c := by
  constructor
  · have hempty : ({ maxPeers := maxPeers, challengeTtl := ttl } : SignedPeerRoutes A).Bounded :=
      Nat.zero_le maxPeers
    obtain ⟨hbounded, hmax⟩ := h.bounded hempty
    rw [Bounded, hmax] at hbounded
    exact hbounded
  · intro peer source r p hp
    exact startProbe_keeps i source r hp

theorem directory_within_capacity_hello : ∃ i : Ingress Nat,
    Reaches Boundary.unchecked noHash nine i ∧ i.routes.identities.length = 1 ∧
      i.routes.identities.length ≤ 4 := by
  have hreaches := ((@Reaches.start Nat _ Boundary.unchecked noHash nine).handle hello).handle answer
  refine ⟨_, hreaches, by decide +kernel, (directory_within_capacity hreaches).1⟩

end Ingress

end Reconcile
