import Reconcile.Framing.Accounting

namespace Reconcile
open Lib
set_option autoImplicit true

/-- What a transfer holds, without its times. -/
structure Slot where
  totalLen : Nat
  fragments : List (Nat × Bytes)
  deriving DecidableEq

def Transfer.slot (t : Transfer) : Slot := ⟨t.totalLen, t.fragments⟩

@[simp] theorem Transfer.slot_totalLen (t : Transfer) : t.slot.totalLen = t.totalLen := rfl

@[simp] theorem Transfer.slot_fragments (t : Transfer) : t.slot.fragments = t.fragments := rfl

/-- Bytes that a transfer may hold when everything else has made room for it. -/
def ReassemblyLimits.Holds (limits : ReassemblyLimits) (bytes : Nat) : Prop :=
  bytes ≤ limits.maxReassemblyBytesPerPeer ∧ bytes ≤ limits.maxTotalReassemblyBytes

instance ReassemblyLimits.decidableHolds (limits : ReassemblyLimits) (bytes : Nat) :
    Decidable (limits.Holds bytes) :=
  inferInstanceAs (Decidable (_ ∧ _))

namespace Slot

variable {hash : Bytes → TransferId} {limits : ReassemblyLimits} {f : FragmentInput}
  {slot : Option Slot}

def bytes (slot : Slot) : Nat := Pieces.size slot.fragments

def settle (hash : Bytes → TransferId) (id : TransferId) (slot : Slot) :
    Option Slot × Except FrameError ReceiveOutcome :=
  if slot.bytes ≠ slot.totalLen then (some slot, .ok .pending)
  else if hash (Pieces.join slot.fragments) ≠ id then (none, .error .hashMismatch)
  else (none, .ok (.complete (Pieces.join slot.fragments)))

/-- What a further fragment would do to a slot that had the receiver to itself. -/
def extend (hash : Bytes → TransferId) (limits : ReassemblyLimits) (slot : Slot)
    (f : FragmentInput) : Option Slot × Except FrameError ReceiveOutcome :=
  if slot.totalLen ≠ f.totalLen then (some slot, .error .inconsistentMetadata)
  else
    match Pieces.find slot.fragments f.offset with
    | some bytes =>
      if bytes = f.bytes then (some slot, .ok .duplicate)
      else (some slot, .error .overlappingFragment)
    | none =>
      if Pieces.overlaps slot.fragments f.offset (f.offset + f.bytes.length) = true then
        (some slot, .error .overlappingFragment)
      else if limits.maxFragmentsPerMessage ≤ slot.fragments.length then
        (some slot, .error .tooManyFragments)
      else if limits.Holds (slot.bytes + f.bytes.length) then
        settle hash f.id ⟨slot.totalLen, Pieces.place f.offset f.bytes slot.fragments⟩
      else (some slot, .error .reassemblyCapacity)

def fresh (hash : Bytes → TransferId) (limits : ReassemblyLimits) (f : FragmentInput) :
    Option Slot × Except FrameError ReceiveOutcome :=
  if 0 < limits.maxIncompleteTransfersPerPeer ∧ limits.Holds f.bytes.length then
    settle hash f.id ⟨f.totalLen, [(f.offset, f.bytes)]⟩
  else (none, .error .reassemblyCapacity)

def offer (hash : Bytes → TransferId) (limits : ReassemblyLimits) (slot : Option Slot)
    (f : FragmentInput) : Option Slot × Except FrameError ReceiveOutcome :=
  if f.bytes = [] then (slot, .error .emptyFragment)
  else if limits.maxLogicalMessageSize < f.totalLen then (slot, .error .logicalMessageTooLarge)
  else if limits.maxFragmentsPerMessage = 0 then (slot, .error .tooManyFragments)
  else if f.totalLen < f.offset + f.bytes.length then (slot, .error .invalidFragmentBounds)
  else slot.elim (fresh hash limits f) fun s => s.extend hash limits f

/-- What a fragment can do to a slot: nothing, or it is put where it belongs. -/
inductive Offered (hash : Bytes → TransferId) (limits : ReassemblyLimits) (slot : Option Slot)
    (f : FragmentInput) : Option Slot × Except FrameError ReceiveOutcome → Prop where
  | kept (ho : ∀ payload, o ≠ .ok (.complete payload)) : Offered hash limits slot f (slot, o)
  | placed (hslot : slot = none ∧ ps = [] ∨ slot = some ⟨f.totalLen, ps⟩) (hb : f.bytes ≠ [])
      (hsize : f.totalLen ≤ limits.maxLogicalMessageSize)
      (hend : f.offset + f.bytes.length ≤ f.totalLen)
      (hfree : Pieces.overlaps ps f.offset (f.offset + f.bytes.length) = false)
      (hnew : slot = none → 0 < limits.maxIncompleteTransfersPerPeer)
      (hroom : limits.Holds (Pieces.size ps + f.bytes.length)) :
      Offered hash limits slot f
        (settle hash f.id ⟨f.totalLen, Pieces.place f.offset f.bytes ps⟩)

theorem offer_offered (hash : Bytes → TransferId) (limits : ReassemblyLimits) (slot : Option Slot)
    (f : FragmentInput) : Offered hash limits slot f (offer hash limits slot f) := by
  unfold offer
  split
  · exact .kept nofun
  next hb =>
  split
  · exact .kept nofun
  next hsize =>
  split
  · exact .kept nofun
  split
  · exact .kept nofun
  next hend =>
  cases slot with
  | none =>
    simp only [Option.elim_none, fresh]
    split
    · next hgrant =>
      refine .placed (.inl ⟨rfl, rfl⟩) hb (Nat.le_of_not_lt hsize) (Nat.le_of_not_lt hend) rfl
        (fun _ => hgrant.1) ?_
      rw [show Pieces.size ([] : List (Nat × Bytes)) = 0 from rfl, Nat.zero_add]
      exact hgrant.2
    · exact .kept nofun
  | some s =>
    simp only [Option.elim_some, extend]
    split
    · exact .kept nofun
    next hlen =>
    split
    · split
      · exact .kept nofun
      · exact .kept nofun
    split
    · exact .kept nofun
    next hfree =>
    split
    · exact .kept nofun
    split
    · next hroom =>
      rw [not_not.1 hlen]
      refine .placed (.inr ?_) hb (Nat.le_of_not_lt hsize) (Nat.le_of_not_lt hend)
        (Bool.eq_false_iff.2 hfree) nofun hroom
      rw [← not_not.1 hlen]
    · exact .kept nofun

theorem settle_ne_capacity (hash : Bytes → TransferId) (id : TransferId) (slot : Slot) :
    (slot.settle hash id).2 ≠ .error .reassemblyCapacity := by
  unfold settle
  split
  · nofun
  · split <;> nofun

/-- A fragment of a message that the limits hold is never refused for want of room. -/
theorem offer_ne_capacity (hspaced : ∀ s, slot = some s → Pieces.Spaced 0 s.fragments s.totalLen)
    (hslots : 0 < limits.maxIncompleteTransfersPerPeer) (hroom : limits.Holds f.totalLen) :
    (offer hash limits slot f).2 ≠ .error .reassemblyCapacity := by
  have hholds : ∀ n, n ≤ f.totalLen → limits.Holds n :=
    fun n hn => ⟨hn.trans hroom.1, hn.trans hroom.2⟩
  unfold offer
  split
  · nofun
  next hb =>
  split
  · nofun
  split
  · nofun
  split
  · nofun
  next hend =>
  cases slot with
  | none =>
    have hle : f.bytes.length ≤ f.totalLen := by omega
    rw [Option.elim_none, fresh, if_pos ⟨hslots, hholds _ hle⟩]
    exact settle_ne_capacity hash f.id _
  | some s =>
    simp only [Option.elim_some, extend]
    split
    · nofun
    next hlen =>
    split
    · split <;> nofun
    split
    · nofun
    next hfree =>
    split
    · nofun
    have hs := hspaced s rfl
    rw [not_not.1 hlen] at hs
    have hle := hs.size_add_le (Nat.zero_le _) hb (Nat.le_of_not_lt hend) (Bool.eq_false_iff.2 hfree)
    rw [Nat.zero_add, ← bytes] at hle
    rw [if_pos (hholds _ hle)]
    exact settle_ne_capacity hash f.id _

end Slot

namespace Reassembler

variable {P : Type} [LinearOrder P] {hash : Bytes → TransferId} {r s : Reassembler P} {peer p : P}
  {id i : TransferId} {n : Nat} {t : Transfer} {e : FrameError}

theorem oldestForPeer_none (h : r.oldestForPeer peer (some id) = none) (hi : i ≠ id) :
    r.transfer peer i = none := by
  unfold oldestForPeer at h
  unfold transfer
  cases hl : r.peers.lookup peer with
  | none => rfl
  | some state =>
    rw [hl] at h
    rw [Option.bind_some, Option.eq_none_iff_forall_ne_some]
    intro t ht
    rw [Option.map_eq_none_iff, List.min?_eq_none_iff, List.map_eq_nil_iff] at h
    have hm : (i, t) ∈ state.transfers.toList.filter fun t => some t.1 ≠ some id :=
      List.mem_filter.2 ⟨(HashMap.mem_toList _ _ _).2 ht, by simpa using hi⟩
    rw [h] at hm
    cases hm

theorem oldestGlobal_none (h : r.oldestGlobal (some (peer, id)) = none)
    (hne : ¬ (p = peer ∧ i = id)) : r.transfer p i = none := by
  rw [Option.eq_none_iff_forall_ne_some]
  intro t ht
  unfold oldestGlobal at h
  rw [Option.map_eq_none_iff, List.min?_eq_none_iff, List.map_eq_nil_iff] at h
  have hk : (p, i) ≠ (peer, id) := fun he => hne (Prod.mk.injEq .. ▸ he)
  have hm : ((p, i), t) ∈ r.held.filter fun t => some t.1 ≠ some (peer, id) :=
    List.mem_filter.2 ⟨(mem_held r (p, i) t).2 ht, decide_eq_true fun he => hk (Option.some.inj he)⟩
  rw [h] at hm
  cases hm

theorem Balanced.transferBytes_le (h : r.Balanced) (peer : P) (id : TransferId) :
    r.transferBytes peer id ≤ r.peerBytes peer := by
  rw [transferBytes, transfer, peerBytes_eq]
  cases hl : r.peers.lookup peer with
  | none => exact le_rfl
  | some state =>
    have hsplit := HashMap.tally_eq_erase Transfer.retainedBytes state.transfers id
    rw [Option.bind_some, Option.elim_some, (h.peers peer state hl).bytes]
    omega

theorem Balanced.peerBytes_le (h : r.Balanced) (peer : P) :
    r.peerBytes peer ≤ r.totalRetainedBytes := by
  have hsplit := HashMap.tally_eq_erase PeerState.retainedBytes r.peers peer
  rw [peerBytes_eq, h.total]
  omega

theorem Balanced.peerBytes_alone (h : r.Balanced) (hi : ∀ i, i ≠ id → r.transfer peer i = none) :
    r.peerBytes peer = r.transferBytes peer id := by
  rw [transferBytes, transfer, peerBytes_eq]
  cases hl : r.peers.lookup peer with
  | none => rfl
  | some state =>
    have hempty : state.transfers.erase id = ∅ := by
      apply HashMap.eq_empty_of_lookup
      intro i
      rw [HashMap.lookup_erase_eq]
      split
      · rfl
      · next hne =>
        have hnone := hi i hne
        rwa [transfer, hl, Option.bind_some] at hnone
    have hsplit := HashMap.tally_eq_erase Transfer.retainedBytes state.transfers id
    rw [hempty] at hsplit
    rw [Option.bind_some, Option.elim_some, (h.peers peer state hl).bytes]
    exact hsplit

theorem transferCount_eq_zero (hi : ∀ i, r.transfer peer i = none) :
    r.transferCount peer = 0 := by
  rw [transferCount_eq]
  cases hl : r.peers.lookup peer with
  | none => rfl
  | some state =>
    have hempty : state.transfers = ∅ := by
      apply HashMap.eq_empty_of_lookup
      intro i
      have hnone := hi i
      rwa [transfer, hl, Option.bind_some] at hnone
    rw [Option.elim_some, hempty]
    rfl

theorem transfer_eq_none_of_count (h : r.transferCount peer = 0) (i : TransferId) :
    r.transfer peer i = none := by
  rw [transferCount_eq] at h
  unfold transfer
  cases hl : r.peers.lookup peer with
  | none => rfl
  | some state =>
    rw [hl, Option.elim_some] at h
    have hempty : state.transfers = ∅ := AList.ext (List.length_eq_zero_iff.1 h)
    rw [Option.bind_some, hempty, AList.lookup_empty]

theorem Balanced.total_alone (h : r.Balanced)
    (hi : ∀ p i, ¬ (p = peer ∧ i = id) → r.transfer p i = none) :
    r.totalRetainedBytes = r.transferBytes peer id := by
  have hempty : r.peers.erase peer = ∅ := by
    apply HashMap.eq_empty_of_lookup
    intro p
    rw [HashMap.lookup_erase_eq]
    split
    · rfl
    · next hne =>
      cases hl : r.peers.lookup p with
      | none => rfl
      | some state =>
        have hnone : state.transfers = ∅ := by
          apply HashMap.eq_empty_of_lookup
          intro i
          have hp := hi p i fun hp => hne hp.1
          rwa [transfer, hl, Option.bind_some] at hp
        refine absurd ?_ (h.peers p state hl).nonempty
        rw [hnone]
        rfl
  have hsplit := HashMap.tally_eq_erase PeerState.retainedBytes r.peers peer
  rw [hempty, ← h.total, ← peerBytes_eq] at hsplit
  rw [← h.peerBytes_alone fun i hne => hi peer i fun hp => hne hp.2]
  exact hsplit

theorem Balanced.frees (h : r.Balanced) (hf : Frees peer id r n s) : s.Balanced := by
  induction hf with
  | start => exact h
  | remove _ _ ih => exact ih.removeTransfer _ _

theorem Frees.transferBytes (h : Frees peer id r n s) :
    s.transferBytes peer id = r.transferBytes peer id := by
  rw [Reassembler.transferBytes, h.transfer_self, Reassembler.transferBytes]

theorem makeByteRoom_iff (h : r.Balanced) (hf : Frees peer id r n s) (incoming : Nat) :
    (s.makeByteRoom peer id incoming n).2.2 = .ok () ↔
      r.limits.Holds (r.transferBytes peer id + incoming) := by
  have hroom := hf.makeByteRoom incoming
  have hb := h.frees hroom
  have hself := hroom.transferBytes
  rw [← hroom.limits, ← hself]
  constructor
  · intro hok
    obtain ⟨hpeer, htotal⟩ := makeByteRoom_ok hok
    have hle := hb.transferBytes_le peer id
    have hle' := hb.peerBytes_le peer
    exact ⟨by omega, by omega⟩
  · intro hfit
    cases hr : (s.makeByteRoom peer id incoming n).2.2 with
    | ok u => rfl
    | error e =>
      -- the loop gave up with nothing but the transfer itself left
      exfalso
      rcases makeByteRoom_stuck hr with ⟨hfull, hnone⟩ | ⟨hfull, hnone⟩
      · rw [hb.peerBytes_alone fun i hi => oldestForPeer_none hnone hi] at hfull
        exact Nat.not_lt.2 hfit.1 hfull
      · rw [hb.total_alone fun p i hne => oldestGlobal_none hnone hne] at hfull
        exact Nat.not_lt.2 hfit.2 hfull

theorem makeTransferSlot_iff (h : r.Balanced) (ht : r.transfer peer id = none) (incoming : Nat) :
    (r.makeTransferSlot peer id incoming 0).2.2 = .ok () ↔
      0 < r.limits.maxIncompleteTransfersPerPeer ∧ r.limits.Holds incoming := by
  have hslot := (Frees.start : Frees peer id r 0 r).makeTransferSlot incoming
  have hb := h.frees hslot
  constructor
  · intro hok
    have hlt := makeTransferSlot_ok hok
    rw [hslot.limits] at hlt
    refine ⟨Nat.zero_lt_of_lt hlt, ?_⟩
    unfold makeTransferSlot at hok
    split at hok
    · cases hok
    · next hbig =>
      rw [not_or, Nat.not_lt, Nat.not_lt] at hbig
      exact hbig
  · rintro ⟨hpos, hfit⟩
    cases hr : (r.makeTransferSlot peer id incoming 0).2.2 with
    | ok u => rfl
    | error e =>
      exfalso
      rcases makeTransferSlot_stuck hr with hbig | ⟨hfull, hnone⟩
      · have hfit' : incoming ≤ _ ∧ incoming ≤ _ := hfit
        omega
      · -- the peer has no transfers at all, so it is not kept
        have hall : ∀ i, (r.makeTransferSlot peer id incoming 0).1.transfer peer i = none := by
          intro i
          by_cases hi : i = id
          · rw [hi, hslot.transfer_self, ht]
          · exact oldestForPeer_none hnone hi
        rw [transferCount_eq_zero hall, hslot.limits] at hfull
        omega

theorem store_slot (hash : Bytes → TransferId) (r : Reassembler P) (peer : P) (id : TransferId)
    (t : Transfer) (added : Nat) :
    (((r.store hash peer id t added).1.transfer peer id).map Transfer.slot,
      (r.store hash peer id t added).2) = t.slot.settle hash id := by
  have hbytes : t.slot.bytes = t.retainedBytes := t.retained_eq.symm
  rw [transfer_store, if_pos ⟨rfl, rfl⟩]
  unfold Slot.settle store
  rw [hbytes]
  by_cases hdone : t.retainedBytes = t.totalLen
  · simp only [Transfer.slot_totalLen, Transfer.slot_fragments, hdone, ne_eq, not_true_eq_false,
      if_true, if_false, Option.map_none]
    by_cases hid : hash (Pieces.join t.fragments) = id
    · simp only [hid, not_true_eq_false, if_false]
    · simp only [hid, not_false_eq_true, if_true]
  · simp only [Transfer.slot_totalLen, hdone, ne_eq, not_false_eq_true, if_true, if_false,
      Option.map_some]

theorem extendTransfer_offer (h : r.Balanced) {f : FragmentInput}
    (ht : r.transfer peer f.id = some t) (hb : f.bytes ≠ [])
    (he : f.offset + f.bytes.length ≤ f.totalLen) (now : Nat) :
    (((r.extendTransfer hash peer f t now hb he).1.transfer peer f.id).map Transfer.slot,
      (r.extendTransfer hash peer f t now hb he).2.2) =
        t.slot.extend hash r.limits f := by
  have hself : (r.transfer peer f.id).map Transfer.slot = some t.slot := by
    rw [ht, Option.map_some]
  have hbytes : r.transferBytes peer f.id = t.slot.bytes := by
    rw [transferBytes, ht, Option.elim_some]
    exact t.retained_eq
  have hstart : Frees peer f.id r 0 r := .start
  have hroom := hstart.makeByteRoom f.bytes.length
  have hfit := makeByteRoom_iff h hstart f.bytes.length
  rw [hbytes] at hfit
  unfold extendTransfer Slot.extend
  rw [Transfer.slot_totalLen, Transfer.slot_fragments]
  by_cases hlen : t.totalLen = f.totalLen
  case neg => rw [dif_pos hlen, if_pos hlen, hself]
  have hsame : ¬ t.totalLen ≠ f.totalLen := not_not.2 hlen
  rw [dif_neg hsame, if_neg hsame]
  cases hfind : Pieces.find t.fragments f.offset with
  | some bytes =>
    simp only
    split
    · rw [transfer_put, if_pos ⟨rfl, rfl⟩]
      rfl
    · rw [hself]
  | none =>
    simp only
    split
    · rw [hself]
    split
    · rw [hself]
    cases hr : (r.makeByteRoom peer f.id f.bytes.length 0).2.2 with
    | ok u =>
      rw [if_pos (hfit.1 hr)]
      exact store_slot hash _ peer f.id _ _
    | error e =>
      have hno : ¬ r.limits.Holds (t.slot.bytes + f.bytes.length) := by
        intro hyes
        rw [hfit.2 hyes] at hr
        cases hr
      rw [if_neg hno]
      cases makeByteRoom_error hr
      simp only
      rw [hroom.transfer_self, hself]

theorem openTransfer_offer (h : r.Balanced) {f : FragmentInput}
    (ht : r.transfer peer f.id = none) (hb : f.bytes ≠ [])
    (he : f.offset + f.bytes.length ≤ f.totalLen) (now : Nat) :
    (((r.openTransfer hash peer f now hb he).1.transfer peer f.id).map Transfer.slot,
      (r.openTransfer hash peer f now hb he).2.2) = Slot.fresh hash r.limits f := by
  have hbytes : r.transferBytes peer f.id = 0 := by
    rw [transferBytes, ht, Option.elim_none]
  have hslot := (Frees.start : Frees peer f.id r 0 r).makeTransferSlot f.bytes.length
  have hroom := hslot.makeByteRoom f.bytes.length
  have hgrant := makeTransferSlot_iff h ht f.bytes.length
  have hfit := makeByteRoom_iff h hslot f.bytes.length
  rw [hbytes, Nat.zero_add] at hfit
  unfold openTransfer Slot.fresh
  simp only
  cases hs : (r.makeTransferSlot peer f.id f.bytes.length 0).2.2 with
  | error e =>
    have hno : ¬ (0 < r.limits.maxIncompleteTransfersPerPeer ∧
        r.limits.Holds f.bytes.length) := by
      intro hyes
      rw [hgrant.2 hyes] at hs
      cases hs
    rw [if_neg hno]
    cases makeTransferSlot_error hs
    simp only
    rw [hslot.transfer_self, ht, Option.map_none]
  | ok u =>
    have hyes := hgrant.1 hs
    rw [if_pos hyes, hfit.2 hyes.2]
    exact store_slot hash _ peer f.id _ _

/-- Other transfers can be evicted, whatever their peer, but they never change the answer. -/
theorem acceptFragment_offer (hash : Bytes → TransferId) (h : r.Balanced) (peer : P)
    (f : FragmentInput) (now : Nat) :
    (((r.acceptFragment hash peer f now).1.transfer peer f.id).map Transfer.slot,
      (r.acceptFragment hash peer f now).2.2) =
        Slot.offer hash r.limits ((r.transfer peer f.id).map Transfer.slot) f := by
  unfold acceptFragment Slot.offer
  split
  · rfl
  split
  · rfl
  split
  · rfl
  split
  · rfl
  next hb _ _ he =>
  cases ht : r.transfer peer f.id with
  | some t => exact extendTransfer_offer h ht hb (Nat.le_of_not_lt he) now
  | none => exact openTransfer_offer h ht hb (Nat.le_of_not_lt he) now

end Reassembler

end Reconcile
