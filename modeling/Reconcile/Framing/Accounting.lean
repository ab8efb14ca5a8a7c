import Reconcile.Framing.Recovery

namespace Reconcile
open Lib
set_option autoImplicit true

structure PeerState.Balanced (state : PeerState) : Prop where
  nonempty : state.transfers.len ≠ 0
  bytes : state.retainedBytes = state.transfers.tally Transfer.retainedBytes

theorem PeerState.Balanced.of_without {state state' : PeerState} {id : TransferId} (h : state.Balanced)
    (hw : state.without id = some state') : state'.Balanced := by
  unfold without at hw
  split at hw
  · split at hw
    · cases hw
    · cases hw
      exact h
  · next t ht =>
    split at hw
    · cases hw
    · next hne =>
      cases hw
      have hsplit := HashMap.tally_eq_erase Transfer.retainedBytes state.transfers id
      rw [ht, Option.elim_some, ← h.bytes] at hsplit
      exact ⟨hne, by simp only; omega⟩

theorem PeerState.Balanced.elim_without {state : PeerState} (h : state.Balanced)
    (id : TransferId) :
    (state.without id).elim 0 PeerState.retainedBytes +
      (state.transfers.lookup id).elim 0 Transfer.retainedBytes = state.retainedBytes := by
  have hsplit := HashMap.tally_eq_erase Transfer.retainedBytes state.transfers id
  rw [← h.bytes] at hsplit
  unfold without
  split
  · next hn => rw [if_neg h.nonempty, hn, Option.elim_some, Option.elim_none, Nat.add_zero]
  · next t ht =>
    rw [ht, Option.elim_some] at hsplit
    rw [ht, Option.elim_some]
    split
    · next hm =>
      have hempty : state.transfers.erase id = ∅ := AList.ext (List.length_eq_zero_iff.1 hm)
      rw [hempty] at hsplit
      exact (Nat.zero_add _).trans hsplit.symm
    · simp only [Option.elim_some]
      omega

namespace Reassembler

variable {P : Type} [LinearOrder P] {hash : Bytes → TransferId} {r s : Reassembler P} {peer p : P}
  {id i : TransferId} {n now : Nat} {t t' : Transfer}

/-- The counters at each level are the sums of those below, and no peer is kept for nothing. -/
structure Balanced (r : Reassembler P) : Prop where
  total : r.totalRetainedBytes = r.peers.tally PeerState.retainedBytes
  peers : ∀ p state, r.peers.lookup p = some state → state.Balanced

structure Bounded (r : Reassembler P) : Prop where
  transfers : ∀ p, r.transferCount p ≤ r.limits.maxIncompleteTransfersPerPeer
  peerBytes : ∀ p, r.peerBytes p ≤ r.limits.maxReassemblyBytesPerPeer
  bytes : r.totalRetainedBytes ≤ r.limits.maxTotalReassemblyBytes

/-- A transfer that is held is not complete, and neither longer nor in more fragments than it may
be. -/
structure Unfinished (limits : ReassemblyLimits) (t : Transfer) : Prop where
  nonempty : t.fragments ≠ []
  count : t.fragments.length ≤ limits.maxFragmentsPerMessage
  bytes : t.retainedBytes < t.totalLen
  size : t.totalLen ≤ limits.maxLogicalMessageSize

structure Accounted (r : Reassembler P) : Prop where
  balanced : r.Balanced
  bounded : r.Bounded
  unfinished : ∀ p i t, r.transfer p i = some t → Unfinished r.limits t

/-- A sum over the peers changes with the peer that loses the transfer. -/
theorem tally_removeTransfer (f : PeerState → Nat) (r : Reassembler P) (peer : P)
    (id : TransferId) :
    (r.removeTransfer peer id).peers.tally f + (r.peers.lookup peer).elim 0 f =
      r.peers.tally f + ((r.peers.lookup peer).bind fun state => state.without id).elim 0 f := by
  have hsplit := HashMap.tally_eq_erase f r.peers peer
  unfold removeTransfer
  cases hl : r.peers.lookup peer with
  | none => rfl
  | some state =>
    rw [hl, Option.elim_some] at hsplit
    simp only [Option.bind_some, PeerState.without]
    cases state.transfers.lookup id with
    | none =>
      simp only
      split
      · simp only [Option.elim_some, Option.elim_none]
        omega
      · simp only [Option.elim_some]
    | some t =>
      simp only
      split
      · simp only [Option.elim_some, Option.elim_none]
        omega
      · simp only [Option.elim_some, HashMap.tally_insert]
        omega

theorem totalRetainedBytes_removeTransfer (r : Reassembler P) (peer : P) (id : TransferId) :
    (r.removeTransfer peer id).totalRetainedBytes =
      r.totalRetainedBytes - (r.transfer peer id).elim 0 Transfer.retainedBytes := by
  unfold removeTransfer transfer
  cases r.peers.lookup peer with
  | none => rfl
  | some state =>
    simp only [Option.bind_some]
    cases state.transfers.lookup id with
    | none =>
      simp only
      split <;> rfl
    | some t => rfl

theorem Balanced.removeTransfer (h : r.Balanced) (peer : P) (id : TransferId) :
    (r.removeTransfer peer id).Balanced where
  total := by
    have htally := tally_removeTransfer PeerState.retainedBytes r peer id
    rw [totalRetainedBytes_removeTransfer, h.total, transfer]
    cases hl : r.peers.lookup peer with
    | none =>
      rw [hl] at htally
      exact htally.symm
    | some state =>
      have hw := (h.peers peer state hl).elim_without id
      rw [hl] at htally
      simp only [Option.bind_some, Option.elim_some] at htally ⊢
      omega
  peers p state hs := by
    rw [lookup_removeTransfer] at hs
    split at hs
    · obtain ⟨state', hl, hw⟩ := Option.bind_eq_some_iff.1 hs
      exact (h.peers peer state' hl).of_without hw
    · exact h.peers p state hs

theorem Bounded.removeTransfer (h : r.Bounded) (peer : P) (id : TransferId) :
    (r.removeTransfer peer id).Bounded where
  transfers p := by
    rw [limits_removeTransfer]
    exact (transferCount_removeTransfer_le r peer p id).trans (h.transfers p)
  peerBytes p := by
    rw [limits_removeTransfer]
    exact (peerBytes_removeTransfer_le r peer p id).trans (h.peerBytes p)
  bytes := by
    rw [limits_removeTransfer]
    exact (totalRetainedBytes_removeTransfer_le r peer id).trans h.bytes

theorem Accounted.removeTransfer (h : r.Accounted) (peer : P) (id : TransferId) :
    (r.removeTransfer peer id).Accounted where
  balanced := h.balanced.removeTransfer peer id
  bounded := h.bounded.removeTransfer peer id
  unfinished p i t ht := by
    rw [transfer_removeTransfer] at ht
    rw [limits_removeTransfer]
    split at ht
    · cases ht
    · exact h.unfinished p i t ht

theorem Accounted.frees (h : r.Accounted) (hf : Frees peer id r n s) : s.Accounted := by
  induction hf with
  | start => exact h
  | remove _ _ ih => exact ih.removeTransfer _ _

theorem Accounted.expire (h : r.Accounted) (now : Nat) : (r.expire now).1.Accounted :=
  List.foldlRecOn (motive := Accounted) (r.expired now) _ h fun _ h k _ => h.removeTransfer k.1 k.2

def transferBytes (r : Reassembler P) (peer : P) (id : TransferId) : Nat :=
  (r.transfer peer id).elim 0 Transfer.retainedBytes

theorem Balanced.put (h : r.Balanced) (peer : P) (id : TransferId) (t : Transfer) (added : Nat)
    (ht : t.retainedBytes = r.transferBytes peer id + added) :
    (r.put peer id t added).Balanced := by
  have hsplit := HashMap.tally_eq_erase PeerState.retainedBytes r.peers peer
  have hstate : ((r.peers.lookup peer).getD ⟨∅, 0⟩).retainedBytes =
      (r.peers.lookup peer).elim 0 PeerState.retainedBytes := by
    cases r.peers.lookup peer <;> rfl
  have hbytes : ((r.peers.lookup peer).getD ⟨∅, 0⟩).retainedBytes =
      ((r.peers.lookup peer).getD ⟨∅, 0⟩).transfers.tally Transfer.retainedBytes := by
    cases hl : r.peers.lookup peer with
    | none => rfl
    | some state => exact (h.peers peer state hl).bytes
  have hold : r.transferBytes peer id =
      (((r.peers.lookup peer).getD ⟨∅, 0⟩).transfers.lookup id).elim 0 Transfer.retainedBytes := by
    unfold transferBytes transfer
    cases r.peers.lookup peer <;> rfl
  refine ⟨?_, ?_⟩
  · simp only [Reassembler.put, HashMap.tally_insert, hstate, h.total]
    omega
  · intro p state hs
    simp only [Reassembler.put, HashMap.lookup_insert_eq] at hs
    split at hs
    · cases hs
      have hpeer := HashMap.tally_eq_erase Transfer.retainedBytes
        ((r.peers.lookup peer).getD ⟨∅, 0⟩).transfers id
      refine ⟨Nat.succ_ne_zero _, ?_⟩
      simp only [HashMap.tally_insert]
      omega
    · exact h.peers p state hs

theorem peerBytes_put (r : Reassembler P) (peer p : P) (id : TransferId) (t : Transfer)
    (added : Nat) : (r.put peer id t added).peerBytes p =
      r.peerBytes p + if p = peer then added else 0 := by
  simp only [peerBytes_eq, put, HashMap.lookup_insert_eq]
  split
  · next hp =>
    subst hp
    cases r.peers.lookup p <;> rfl
  · rfl

theorem transferCount_put (r : Reassembler P) (peer p : P) (id : TransferId) (t : Transfer)
    (added : Nat) : (r.put peer id t added).transferCount p =
      r.transferCount p + if p = peer ∧ r.transfer peer id = none then 1 else 0 := by
  have hnew : ∀ m : HashMap TransferId Transfer, HashMap.len (m.insert id t) =
      m.len + if m.lookup id = none then 1 else 0 := by
    intro m
    have hsplit := m.len_eq_erase id
    rw [HashMap.len_insert]
    cases hl : m.lookup id with
    | none =>
      rw [hl, Option.elim_none] at hsplit
      simp only [if_true]
      omega
    | some t' =>
      rw [hl, Option.elim_some] at hsplit
      simp only [reduceCtorEq, if_false]
      omega
  simp only [transferCount_eq, put, HashMap.lookup_insert_eq]
  by_cases hp : p = peer
  · subst hp
    simp only [if_true, Option.elim_some, hnew, true_and, transfer]
    cases r.peers.lookup p with
    | none => rfl
    | some state => rfl
  · simp only [hp, if_false, false_and, Nat.add_zero]

theorem Bounded.put (h : r.Bounded) (hroom : r.Room peer id added) (t : Transfer) :
    (r.put peer id t added).Bounded where
  transfers p := by
    have hp := h.transfers p
    rw [transferCount_put, limits_put]
    split
    · next hnew =>
      have hslot := hroom.slot hnew.2
      rw [hnew.1]
      omega
    · exact hp
  peerBytes p := by
    have hp := h.peerBytes p
    rw [peerBytes_put, limits_put]
    split
    · next hpeer =>
      rw [hpeer]
      exact hroom.peerBytes
    · exact hp
  bytes := hroom.bytes

/-- Adding a fragment for which there is room. -/
theorem Accounted.store (h : r.Accounted) (hroom : r.Room peer id added)
    (ht : t.retainedBytes = r.transferBytes peer id + added) (hne : t.fragments ≠ [])
    (hcount : t.fragments.length ≤ r.limits.maxFragmentsPerMessage)
    (hlen : t.totalLen ≤ r.limits.maxLogicalMessageSize) :
    (r.store hash peer id t added).1.Accounted where
  balanced := by
    rw [store_state]
    split
    · exact (h.balanced.put peer id t added ht).removeTransfer peer id
    · exact h.balanced.put peer id t added ht
  bounded := by
    rw [store_state]
    split
    · exact (h.bounded.put hroom t).removeTransfer peer id
    · exact h.bounded.put hroom t
  unfinished p i t' ht' := by
    rw [transfer_store] at ht'
    rw [limits_store]
    split at ht'
    · split at ht'
      · cases ht'
      · next hdone =>
        cases ht'
        have hle := t.spaced.size_le
        have hsize := t.retained_eq
        exact ⟨hne, hcount, by omega, hlen⟩
    · exact h.unfinished p i t' ht'

theorem Accounted.retouch (h : r.Accounted) (ht : r.transfer peer id = some t)
    (hlen : t'.totalLen = t.totalLen) (hfragments : t'.fragments = t.fragments) :
    (r.put peer id t' 0).Accounted where
  balanced := by
    apply h.balanced.put
    rw [transferBytes, ht, Option.elim_some, t'.retained_eq, t.retained_eq, hfragments, Nat.add_zero]
  bounded := by
    refine h.bounded.put ⟨?_, h.bounded.peerBytes peer, h.bounded.bytes⟩ t'
    rw [ht]
    exact nofun
  unfinished p i t₁ ht₁ := by
    rw [transfer_put] at ht₁
    split at ht₁
    · cases ht₁
      obtain ⟨hne, hcount, hbytes, hsize⟩ := h.unfinished peer id t ht
      rw [t.retained_eq] at hbytes
      refine ⟨hfragments ▸ hne, hfragments ▸ hcount, ?_, hlen ▸ hsize⟩
      rw [t'.retained_eq, hfragments, hlen]
      exact hbytes
    · exact h.unfinished p i t₁ ht₁

theorem Accounted.handled {f : FragmentInput} (h : r.Accounted)
    (hout : Handled hash r peer f now out) : out.1.Accounted := by
  cases hout with
  | refused hf e => exact h.frees hf
  | duplicate ht hm => exact h.retouch ht rfl rfl
  | @stored n s t hf ht hlen hfits ha =>
    have hlength := Pieces.length_place (b := f.bytes) hfits.offset_ne
    refine (h.frees hf).store ha.room ?_ ?_ ?_ ?_
    · have hold : (r.transfer peer f.id).elim 0 Transfer.retainedBytes = t.retainedBytes := by
        rw [← ht]
        cases r.transfer peer f.id <;> rfl
      rw [transferBytes, hf.transfer_self, hold]
      rfl
    · intro hnil
      have hzero := congrArg List.length hnil
      rw [Transfer.insert] at hzero
      cases hlength.symm.trans hzero
    · rw [hf.limits]
      exact hlength.trans_le ha.count
    · rw [hf.limits]
      exact hlen.trans_le ha.size

theorem Accounted.accept (h : r.Accounted) (peer : P) (bytes : Bytes) (now : Nat) :
    (r.accept hash peer bytes now).1.Accounted := by
  rw [accept_state]
  cases fragmentInput bytes with
  | none => exact h.expire now
  | some f => exact (h.expire now).handled (acceptFragment_handled hash _ peer f now)

theorem Accounted.missingRangesIfDue (h : r.Accounted) (peer : P) (id : TransferId)
    (now interval maxRanges : Nat) :
    (r.missingRangesIfDue peer id now interval maxRanges).1.Accounted := by
  unfold Reassembler.missingRangesIfDue
  split
  · exact h
  split
  · exact h
  next t ht =>
  split
  · split
    · exact h
    · exact h.retouch ht rfl rfl
  · exact h

theorem Accounted.pollLoop (h : r.Accounted) (now maxRanges maxReports : Nat)
    (candidates : List (P × TransferId)) (reports : List (MissingRequest P)) :
    (Reassembler.pollLoop now maxRanges maxReports candidates r reports).1.Accounted := by
  induction candidates generalizing r reports with
  | nil => exact h
  | cons k candidates ih =>
    rw [Reassembler.pollLoop]
    split
    · exact h
    split
    · exact ih h reports
    next t ht =>
    split
    · exact ih h reports
    · have hmarked : (r.put k.1 k.2 (t.requested now) 0).Accounted := h.retouch ht rfl rfl
      exact ih hmarked _

theorem Accounted.pollIdleMissing (h : r.Accounted)
    (now minIdle interval maxRanges maxReports : Nat) :
    (r.pollIdleMissing now minIdle interval maxRanges maxReports).1.Accounted := by
  unfold Reassembler.pollIdleMissing
  split
  · exact h
  split
  · exact h
  · exact h.pollLoop _ _ _ _ _

theorem accounted_forIdentity (limits : ReassemblyLimits) :
    (forIdentity limits : Reassembler P).Accounted where
  balanced := ⟨rfl, nofun⟩
  bounded := ⟨fun _ => Nat.zero_le _, fun _ => Nat.zero_le _, Nat.zero_le _⟩
  unfinished := nofun

end Reassembler

inductive ReassemblyEvent (P : Type) where
  | accept (peer : P) (bytes : Bytes) (now : Nat)
  | expire (now : Nat)
  | missing (peer : P) (id : TransferId) (now interval maxRanges : Nat)
  | poll (now minIdle interval maxRanges maxReports : Nat)

def ReassemblyEvent.time : ReassemblyEvent P → Nat
  | .accept _ _ now | .expire now | .missing _ _ now _ _ | .poll now _ _ _ _ => now

namespace Reassembler

variable {P : Type} [LinearOrder P] {hash : Bytes → TransferId} {r : Reassembler P}

def step (hash : Bytes → TransferId) (r : Reassembler P) : ReassemblyEvent P → Reassembler P
  | .accept peer bytes now => (r.accept hash peer bytes now).1
  | .expire now => (r.expire now).1
  | .missing peer id now interval maxRanges =>
    (r.missingRangesIfDue peer id now interval maxRanges).1
  | .poll now minIdle interval maxRanges maxReports =>
    (r.pollIdleMissing now minIdle interval maxRanges maxReports).1

def run (hash : Bytes → TransferId) (r : Reassembler P) (events : List (ReassemblyEvent P)) :
    Reassembler P :=
  events.foldl (step hash) r

theorem Accounted.step (h : r.Accounted) (e : ReassemblyEvent P) : (r.step hash e).Accounted := by
  cases e with
  | accept peer bytes now => exact h.accept peer bytes now
  | expire now => exact h.expire now
  | missing peer id now interval maxRanges => exact h.missingRangesIfDue _ _ _ _ _
  | poll now minIdle interval maxRanges maxReports => exact h.pollIdleMissing _ _ _ _ _

theorem Accounted.run (h : r.Accounted) (events : List (ReassemblyEvent P)) :
    (r.run hash events).Accounted :=
  List.foldlRecOn (motive := Accounted) events _ h fun _ h e _ => h.step e

theorem limits_missingRangesIfDue (r : Reassembler P) (peer : P) (id : TransferId)
    (now interval maxRanges : Nat) :
    (r.missingRangesIfDue peer id now interval maxRanges).1.limits = r.limits := by
  unfold missingRangesIfDue
  split
  · rfl
  split
  · rfl
  split
  · split <;> rfl
  · rfl

theorem limits_pollLoop (now maxRanges maxReports : Nat) (candidates : List (P × TransferId))
    (r : Reassembler P) (reports : List (MissingRequest P)) :
    (pollLoop now maxRanges maxReports candidates r reports).1.limits = r.limits := by
  induction candidates generalizing r reports with
  | nil => rfl
  | cons k candidates ih =>
    rw [pollLoop]
    split
    · rfl
    split
    · exact ih r reports
    split
    · exact ih r reports
    · exact ih _ _

theorem limits_pollIdleMissing (r : Reassembler P)
    (now minIdle interval maxRanges maxReports : Nat) :
    (r.pollIdleMissing now minIdle interval maxRanges maxReports).1.limits = r.limits := by
  unfold pollIdleMissing
  split
  · rfl
  split
  · rfl
  · exact limits_pollLoop _ _ _ _ _ _

theorem limits_step (hash : Bytes → TransferId) (r : Reassembler P) (e : ReassemblyEvent P) :
    (r.step hash e).limits = r.limits := by
  cases e with
  | accept peer bytes now => exact limits_accept hash r peer bytes now
  | expire now => exact limits_expire r now
  | missing peer id now interval maxRanges => exact limits_missingRangesIfDue r _ _ _ _ _
  | poll now minIdle interval maxRanges maxReports => exact limits_pollIdleMissing r _ _ _ _ _

theorem limits_run (hash : Bytes → TransferId) (r : Reassembler P)
    (events : List (ReassemblyEvent P)) : (r.run hash events).limits = r.limits :=
  List.foldlRecOn (motive := fun s => s.limits = r.limits) events _ rfl
    fun s hs e _ => (limits_step hash s e).trans hs

end Reassembler

structure Transfer.Within (limits : ReassemblyLimits) (t : Transfer) : Prop where
  retained : t.retainedBytes = (t.fragments.map fun f => f.2.length).sum
  fragments : t.fragments ≠ []
  nonempty : ∀ f ∈ t.fragments, f.2 ≠ []
  inside : ∀ f ∈ t.fragments, f.1 + f.2.length ≤ t.totalLen
  disjoint : t.fragments.Pairwise fun f g => f.1 + f.2.length ≤ g.1
  count : t.fragments.length ≤ limits.maxFragmentsPerMessage
  incomplete : t.retainedBytes < t.totalLen

structure PeerState.Within (limits : ReassemblyLimits) (state : PeerState) : Prop where
  nonempty : state.transfers.toList ≠ []
  retained : state.retainedBytes = (state.transfers.toList.map fun t => t.2.retainedBytes).sum
  transfers : ∀ t ∈ state.transfers.toList, t.2.Within limits
  slots : state.transfers.toList.length ≤ limits.maxIncompleteTransfersPerPeer
  bytes : state.retainedBytes ≤ limits.maxReassemblyBytesPerPeer

structure Reassembler.Within {P : Type} (limits : ReassemblyLimits) (r : Reassembler P) : Prop where
  total : r.totalRetainedBytes = (r.peers.toList.map fun s => s.2.retainedBytes).sum
  peers : ∀ s ∈ r.peers.toList, s.2.Within limits
  bytes : r.totalRetainedBytes ≤ limits.maxTotalReassemblyBytes

namespace Reassembler

variable {P : Type} [LinearOrder P] {r : Reassembler P}

theorem Unfinished.within {limits : ReassemblyLimits} {t : Transfer} (h : Unfinished limits t) :
    t.Within limits where
  retained := t.retained_eq
  fragments := h.nonempty
  nonempty _ hf := (t.spaced.mem hf).2.1
  inside _ hf := (t.spaced.mem hf).2.2
  disjoint := t.spaced.pairwise
  count := h.count
  incomplete := h.bytes

theorem Accounted.peerWithin {p : P} (h : r.Accounted) (hs : r.peers.lookup p = some state) :
    state.Within r.limits where
  nonempty hnil := by
    have hlen := congrArg List.length hnil
    rw [HashMap.toList, List.length_map] at hlen
    exact (h.balanced.peers p state hs).nonempty hlen
  retained := (h.balanced.peers p state hs).bytes
  transfers t ht := by
    refine (h.unfinished p t.1 t.2 ?_).within
    rw [transfer, hs, Option.bind_some]
    exact (HashMap.mem_toList _ _ _).1 ht
  slots := by
    have hcount := h.bounded.transfers p
    rw [transferCount_eq, hs, Option.elim_some] at hcount
    rw [HashMap.toList, List.length_map]
    exact hcount
  bytes := by
    have hbytes := h.bounded.peerBytes p
    rw [peerBytes_eq, hs, Option.elim_some] at hbytes
    exact hbytes

/-- Whatever frames arrive from whichever peers, and whatever is expired or polled in between, the
counters are exact at every level and the limits hold. -/
theorem resources_accounted (hash : Bytes → TransferId) (limits : ReassemblyLimits)
    (events : List (ReassemblyEvent P)) :
    ((forIdentity limits : Reassembler P).run hash events).Within limits := by
  have h : ((forIdentity limits : Reassembler P).run hash events).Accounted :=
    (accounted_forIdentity limits).run events
  have hlimits : ((forIdentity limits : Reassembler P).run hash events).limits = limits :=
    limits_run hash _ events
  refine ⟨h.balanced.total, ?_, ?_⟩
  · intro s hs
    have hpeer := h.peerWithin ((HashMap.mem_toList _ _ _).1 hs)
    rwa [hlimits] at hpeer
  · have hbytes := h.bounded.bytes
    rwa [hlimits] at hbytes

theorem held_removeTransfer_lt {peer : P} {id : TransferId}
    (h : (r.transfer peer id).isSome) : (r.removeTransfer peer id).held.length < r.held.length := by
  have hheld : ∀ s : Reassembler P, s.held.length = s.peers.tally fun state => state.transfers.len := by
    intro s
    simp only [held, List.length_flatMap, List.length_map, HashMap.tally, HashMap.len,
      HashMap.toList]
  have htally := tally_removeTransfer (fun state => state.transfers.len) r peer id
  rw [hheld, hheld]
  unfold transfer at h
  cases hl : r.peers.lookup peer with
  | none =>
    rw [hl] at h
    cases h
  | some state =>
    rw [hl, Option.bind_some] at h
    obtain ⟨t, ht⟩ := Option.isSome_iff_exists.1 h
    have hsplit := state.transfers.len_eq_erase id
    have hless : (state.without id).elim 0 (fun s => s.transfers.len) < state.transfers.len := by
      rw [PeerState.without, ht]
      rw [ht, Option.elim_some] at hsplit
      simp only
      split
      · rw [Option.elim_none]
        omega
      · simp only [Option.elim_some]
        omega
    rw [hl, Option.elim_some, Option.bind_some] at htally
    omega

/-- A transfer slot is refused only to a fragment that is too large on its own, or when the peer has
no other transfer left. -/
theorem makeTransferSlot_stuck {peer : P} {id : TransferId}
    (h : (r.makeTransferSlot peer id incoming n).2.2 = .error e) :
    (r.limits.maxReassemblyBytesPerPeer < incoming ∨ r.limits.maxTotalReassemblyBytes < incoming) ∨
      (r.makeTransferSlot peer id incoming n).1.limits.maxIncompleteTransfersPerPeer ≤
          (r.makeTransferSlot peer id incoming n).1.transferCount peer ∧
        (r.makeTransferSlot peer id incoming n).1.oldestForPeer peer (some id) = none := by
  unfold makeTransferSlot at h ⊢
  split at h
  · next hbig => exact .inl hbig
  next hbig =>
  rw [if_neg hbig]
  simp only at h ⊢
  split at h
  · cases h
  · next hroom =>
    obtain ⟨hfull, hnone⟩ := evictWhile_stuck (fun s : Reassembler P => s.held.length)
      (fun s k hk => held_removeTransfer_lt (oldestForPeer_some hk).2) le_rfl
      (Bool.eq_false_iff.2 hroom)
    exact .inr ⟨of_decide_eq_true hfull, hnone⟩

/-- Byte room is refused only when nothing is left that could make any. -/
theorem makeByteRoom_stuck {peer : P} {id : TransferId}
    (h : (r.makeByteRoom peer id incoming n).2.2 = .error e) :
    ((r.makeByteRoom peer id incoming n).1.limits.maxReassemblyBytesPerPeer <
          (r.makeByteRoom peer id incoming n).1.peerBytes peer + incoming ∧
        (r.makeByteRoom peer id incoming n).1.oldestForPeer peer (some id) = none) ∨
      ((r.makeByteRoom peer id incoming n).1.limits.maxTotalReassemblyBytes <
          (r.makeByteRoom peer id incoming n).1.totalRetainedBytes + incoming ∧
        (r.makeByteRoom peer id incoming n).1.oldestGlobal (some (peer, id)) = none) := by
  unfold makeByteRoom at h ⊢
  simp only at h ⊢
  split at h
  · next hpeer =>
    rw [if_pos hpeer]
    simp only at h ⊢
    split at h
    · cases h
    · next hroom =>
      obtain ⟨hfull, hnone⟩ := evictWhile_stuck (fun s : Reassembler P => s.held.length)
        (fun s k hk => held_removeTransfer_lt (oldestGlobal_some hk).2) le_rfl
        (Bool.eq_false_iff.2 hroom)
      exact .inr ⟨of_decide_eq_true hfull, hnone⟩
  · next hpeer =>
    rw [if_neg hpeer]
    obtain ⟨hfull, hnone⟩ := evictWhile_stuck (fun s : Reassembler P => s.held.length)
      (fun s k hk => held_removeTransfer_lt (oldestForPeer_some hk).2) le_rfl
      (Bool.eq_false_iff.2 hpeer)
    exact .inl ⟨of_decide_eq_true hfull, hnone⟩

end Reassembler

end Reconcile
