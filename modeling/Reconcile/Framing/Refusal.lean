import Reconcile.Framing.Slot

namespace Reconcile.Reassembler
open Lib
set_option autoImplicit true

variable {P : Type} [LinearOrder P] {hash : Bytes → TransferId} {r : Reassembler P} {peer p : P}
  {id i : TransferId} {n incoming now : Nat} {t : Transfer} {f : FragmentInput} {e : FrameError}

theorem store_error (h : (r.store hash peer id t n).2 = .error e) : e = .hashMismatch := by
  unfold store at h
  simp only at h
  split at h
  · cases h
  split at h
  · cases h
    rfl
  · cases h

theorem extendTransfer_refused {hb : f.bytes ≠ []} {he : f.offset + f.bytes.length ≤ f.totalLen}
    (h : (r.extendTransfer hash peer f t now hb he).2.2 = .error e) (hne : e ≠ .hashMismatch) :
    ((r.extendTransfer hash peer f t now hb he).1 = r ∧ e ≠ .reassemblyCapacity) ∨
      t.retainedBytes + f.bytes.length ≤ f.totalLen ∧ e = .reassemblyCapacity ∧
        (r.makeByteRoom peer f.id f.bytes.length 0).2.2 = .error e ∧
        (r.extendTransfer hash peer f t now hb he).1 =
          (r.makeByteRoom peer f.id f.bytes.length 0).1 := by
  unfold extendTransfer at h ⊢
  split
  · next hlen =>
    rw [dif_pos hlen] at h
    cases h
    exact .inl ⟨rfl, by rintro ⟨⟩⟩
  next hlen =>
  rw [dif_neg hlen] at h
  split
  · next hfind =>
    rw [hfind] at h
    simp only at h
    split at h
    · cases h
    · next hbytes =>
      rw [if_neg hbytes]
      cases h
      exact .inl ⟨rfl, by rintro ⟨⟩⟩
  next hfind =>
  rw [hfind] at h
  simp only at h
  split
  · next ho =>
    rw [dif_pos ho] at h
    cases h
    exact .inl ⟨rfl, by rintro ⟨⟩⟩
  next ho =>
  rw [dif_neg ho] at h
  split
  · next hcount =>
    rw [if_pos hcount] at h
    cases h
    exact .inl ⟨rfl, by rintro ⟨⟩⟩
  next hcount =>
  rw [if_neg hcount] at h
  simp only
  cases hroom : (r.makeByteRoom peer f.id f.bytes.length 0).2.2 with
  | ok u =>
    rw [hroom] at h
    exact absurd (store_error h) hne
  | error e' =>
    rw [hroom] at h
    cases h
    have hfits : t.Fits f.offset f.bytes :=
      ⟨hb, not_not.1 hlen ▸ he, Bool.eq_false_iff.2 ho⟩
    have hle := (t.insert f.offset f.bytes now hfits).spaced.size_le
    rw [← (t.insert f.offset f.bytes now hfits).retained_eq, Nat.zero_add] at hle
    exact .inr ⟨not_not.1 hlen ▸ hle, makeByteRoom_error hroom, rfl, rfl⟩

theorem oldestForPeer_eq_none (h : ∀ i, i ≠ id → r.transfer peer i = none) :
    r.oldestForPeer peer (some id) = none := by
  cases ho : r.oldestForPeer peer (some id) with
  | none => rfl
  | some k =>
    obtain ⟨hne, hsome⟩ := oldestForPeer_some ho
    rw [h k fun he => hne (congrArg some he)] at hsome
    cases hsome

theorem oldestGlobal_eq_none (h : ∀ p i, ¬ (p = peer ∧ i = id) → r.transfer p i = none) :
    r.oldestGlobal (some (peer, id)) = none := by
  cases ho : r.oldestGlobal (some (peer, id)) with
  | none => rfl
  | some k =>
    obtain ⟨hne, hsome⟩ := oldestGlobal_some ho
    rw [h k.1 k.2 fun he => hne (congrArg some (Prod.ext he.1 he.2))] at hsome
    cases hsome

/-- A first fragment is refused before anything is evicted: a peer without a slot to fill has no
transfers at all. -/
theorem openTransfer_refused (h : r.Accounted) (ht : r.transfer peer f.id = none)
    {hb : f.bytes ≠ []} {he : f.offset + f.bytes.length ≤ f.totalLen}
    (herr : (r.openTransfer hash peer f now hb he).2.2 = .error e) (hne : e ≠ .hashMismatch) :
    (r.openTransfer hash peer f now hb he).1 = r := by
  have hslot := (Frees.start : Frees peer f.id r 0 r).makeTransferSlot f.bytes.length
  have hgrant := makeTransferSlot_iff h.balanced ht f.bytes.length
  have hfit := makeByteRoom_iff h.balanced hslot f.bytes.length
  rw [transferBytes, ht, Option.elim_none, Nat.zero_add] at hfit
  unfold openTransfer at herr ⊢
  simp only at herr ⊢
  cases hs : (r.makeTransferSlot peer f.id f.bytes.length 0).2.2 with
  | ok u =>
    rw [hs, hfit.2 (hgrant.1 hs).2] at herr
    exact absurd (store_error herr) hne
  | error e' =>
    simp only
    unfold makeTransferSlot at hs ⊢
    split
    · rfl
    next hbig =>
    have hzero : r.limits.maxIncompleteTransfersPerPeer = 0 := by
      by_contra hpos
      rw [not_or, Nat.not_lt, Nat.not_lt] at hbig
      have hok := hgrant.2 ⟨Nat.pos_of_ne_zero hpos, hbig⟩
      unfold makeTransferSlot at hok
      rw [hok] at hs
      cases hs
    have hcount := h.bounded.transfers peer
    rw [hzero] at hcount
    refine evictWhile_stay (.inr (oldestForPeer_eq_none ?_))
    intro i _
    exact transfer_eq_none_of_count (Nat.le_zero.1 hcount) i

/-- Nothing else is there to make room: of the peer, when the peer's limit is short, and otherwise
of any peer. -/
def Alone (r : Reassembler P) (peer : P) (id : TransferId) (incoming : Nat) : Prop :=
  if r.limits.maxReassemblyBytesPerPeer < r.transferBytes peer id + incoming then
    ∀ i, i ≠ id → r.transfer peer i = none
  else ∀ p i, ¬ (p = peer ∧ i = id) → r.transfer p i = none

theorem makeByteRoom_alone (h : r.Balanced)
    (herr : (r.makeByteRoom peer id incoming 0).2.2 = .error e) :
    (r.makeByteRoom peer id incoming 0).1.Alone peer id incoming := by
  have hroom := (Frees.start : Frees peer id r 0 r).makeByteRoom incoming
  have hb := h.frees hroom
  unfold Alone
  split
  · rcases makeByteRoom_stuck herr with ⟨_, hnone⟩ | ⟨_, hnone⟩
    · exact fun i hi => oldestForPeer_none hnone hi
    · exact fun i hi => oldestGlobal_none hnone fun he => hi he.2
  · next hfits =>
    rcases makeByteRoom_stuck herr with ⟨hfull, hnone⟩ | ⟨_, hnone⟩
    · rw [hb.peerBytes_alone fun i hi => oldestForPeer_none hnone hi] at hfull
      exact absurd hfull hfits
    · exact fun p i hne => oldestGlobal_none hnone hne

theorem Alone.makeByteRoom (h : r.Balanced) (ha : r.Alone peer id incoming) :
    (r.makeByteRoom peer id incoming n).1 = r := by
  unfold Alone at ha
  unfold Reassembler.makeByteRoom
  simp only
  split at ha
  · next hfull =>
    have hnone := oldestForPeer_eq_none ha
    have hstay : (evictWhile
        (fun r : Reassembler P => r.limits.maxReassemblyBytesPerPeer < r.peerBytes peer + incoming)
        (fun r => r.oldestForPeer peer (some id)) (fun r id => r.removeTransfer peer id)
        r.held.length r n).1 = r := evictWhile_stay (.inr hnone)
    split
    · next hroom =>
      have hnot := evictWhile_room hroom
      rw [hstay, h.peerBytes_alone ha] at hnot
      exact absurd hfull (of_decide_eq_false hnot)
    · exact hstay
  · next hfits =>
    have hpeer : r.peerBytes peer = r.transferBytes peer id :=
      h.peerBytes_alone fun i hi => ha peer i fun he => hi he.2
    have hnone := oldestGlobal_eq_none ha
    have hstay : (evictWhile
        (fun r : Reassembler P => r.limits.maxReassemblyBytesPerPeer < r.peerBytes peer + incoming)
        (fun r => r.oldestForPeer peer (some id)) (fun r id => r.removeTransfer peer id)
        r.held.length r n).1 = r :=
      evictWhile_stay (.inl (decide_eq_false (by rw [hpeer]; exact hfits)))
    split
    · refine (evictWhile_stay (.inr ?_)).trans hstay
      rw [hstay]
      exact hnone
    · exact hstay

theorem makeByteRoom_harmless_iff (h : r.Balanced)
    (herr : (r.makeByteRoom peer id incoming 0).2.2 = .error e) :
    (∀ p i, (r.makeByteRoom peer id incoming 0).1.transfer p i = r.transfer p i) ↔
      r.Alone peer id incoming := by
  have hroom := (Frees.start : Frees peer id r 0 r).makeByteRoom incoming
  constructor
  · intro hsame
    have hafter := makeByteRoom_alone h herr
    unfold Alone at hafter ⊢
    rw [hroom.limits, hroom.transferBytes] at hafter
    split
    · next hfull =>
      rw [if_pos hfull] at hafter
      intro i hi
      rw [← hsame]
      exact hafter i hi
    · next hfits =>
      rw [if_neg hfits] at hafter
      intro p i hne
      rw [← hsame]
      exact hafter p i hne
  · intro ha p i
    rw [ha.makeByteRoom h]

theorem acceptFragment_refused (h : r.Accounted)
    (herr : (r.acceptFragment hash peer f now).2.2 = .error e) (hne : e ≠ .hashMismatch) :
    ((r.acceptFragment hash peer f now).1 = r ∧
        (e = .reassemblyCapacity → r.transfer peer f.id = none)) ∨
      (∃ t, r.transfer peer f.id = some t ∧
          t.retainedBytes + f.bytes.length ≤ r.limits.maxLogicalMessageSize) ∧
        e = .reassemblyCapacity ∧ (r.makeByteRoom peer f.id f.bytes.length 0).2.2 = .error e ∧
        (r.acceptFragment hash peer f now).1 = (r.makeByteRoom peer f.id f.bytes.length 0).1 := by
  unfold acceptFragment at herr ⊢
  split
  · next hb =>
    rw [dif_pos hb] at herr
    cases herr
    exact .inl ⟨rfl, by rintro ⟨⟩⟩
  next hb =>
  rw [dif_neg hb] at herr
  split
  · next hsize =>
    rw [if_pos hsize] at herr
    cases herr
    exact .inl ⟨rfl, by rintro ⟨⟩⟩
  next hsize =>
  rw [if_neg hsize] at herr
  split
  · next hcount =>
    rw [if_pos hcount] at herr
    cases herr
    exact .inl ⟨rfl, by rintro ⟨⟩⟩
  next hcount =>
  rw [if_neg hcount] at herr
  split
  · next hend =>
    rw [dif_pos hend] at herr
    cases herr
    exact .inl ⟨rfl, by rintro ⟨⟩⟩
  next hend =>
  rw [dif_neg hend] at herr
  cases ht : r.transfer peer f.id with
  | none =>
    rw [ht] at herr
    exact .inl ⟨openTransfer_refused h ht herr hne, fun _ => rfl⟩
  | some t =>
    rw [ht] at herr
    rcases extendTransfer_refused herr hne with ⟨hsame, hcap⟩ | ⟨hle, hroom⟩
    · exact .inl ⟨hsame, fun he => absurd he hcap⟩
    · exact .inr ⟨⟨t, rfl, hle.trans (Nat.le_of_not_lt hsize)⟩, hroom⟩

theorem acceptFragment_harmless (h : r.Accounted)
    (hl : r.limits.Holds r.limits.maxLogicalMessageSize)
    (herr : (r.acceptFragment hash peer f now).2.2 = .error e) (hne : e ≠ .hashMismatch) :
    (r.acceptFragment hash peer f now).1 = r := by
  rcases acceptFragment_refused h herr hne with ⟨hsame, _⟩ | ⟨⟨t, ht, hle⟩, _, hroom, _⟩
  · exact hsame
  · have hfit := makeByteRoom_iff h.balanced (Frees.start : Frees peer f.id r 0 r) f.bytes.length
    rw [transferBytes, ht, Option.elim_some] at hfit
    rw [hfit.2 ⟨hle.trans hl.1, hle.trans hl.2⟩] at hroom
    cases hroom

/-- Nothing but the lack of room stands against a fragment of a transfer that is held. -/
structure Lacks (limits : ReassemblyLimits) (t : Transfer) (f : FragmentInput) : Prop where
  nonempty : f.bytes ≠ []
  size : f.totalLen ≤ limits.maxLogicalMessageSize
  inside : f.offset + f.bytes.length ≤ f.totalLen
  same : t.totalLen = f.totalLen
  free : Pieces.overlaps t.fragments f.offset (f.offset + f.bytes.length) = false
  count : t.fragments.length < limits.maxFragmentsPerMessage

theorem Lacks.find_eq_none {limits : ReassemblyLimits} (h : Lacks limits t f) :
    Pieces.find t.fragments f.offset = none := by
  have hfits : t.Fits f.offset f.bytes := ⟨h.nonempty, h.same ▸ h.inside, h.free⟩
  rw [Option.eq_none_iff_forall_ne_some]
  intro b hb
  exact hfits.offset_ne (f.offset, b) (t.spaced.find_eq.1 hb) rfl

theorem offer_capacity_iff (hash : Bytes → TransferId) (limits : ReassemblyLimits) (t : Transfer)
    (f : FragmentInput) :
    (Slot.offer hash limits (some t.slot) f).2 = .error .reassemblyCapacity ↔
      Lacks limits t f ∧ ¬limits.Holds (t.retainedBytes + f.bytes.length) := by
  have hbytes : t.slot.bytes = t.retainedBytes := t.retained_eq.symm
  unfold Slot.offer Slot.extend
  rw [Option.elim_some, hbytes, Transfer.slot_totalLen, Transfer.slot_fragments]
  constructor
  · intro h
    split at h
    · cases h
    next hb =>
    split at h
    · cases h
    next hsize =>
    split at h
    · cases h
    split at h
    · cases h
    next hend =>
    split at h
    · cases h
    next hlen =>
    split at h
    · split at h <;> cases h
    split at h
    · cases h
    next hfree =>
    split at h
    · cases h
    next hcount =>
    split at h
    · exact absurd h (Slot.settle_ne_capacity hash f.id _)
    · next hroom =>
      exact ⟨⟨hb, Nat.le_of_not_lt hsize, Nat.le_of_not_lt hend, not_not.1 hlen,
        Bool.eq_false_iff.2 hfree, Nat.lt_of_not_le hcount⟩, hroom⟩
  · rintro ⟨h, hroom⟩
    have hmax : limits.maxFragmentsPerMessage ≠ 0 := Nat.ne_of_gt (Nat.zero_lt_of_lt h.count)
    have hfree : ¬Pieces.overlaps t.fragments f.offset (f.offset + f.bytes.length) = true :=
      Bool.eq_false_iff.1 h.free
    simp only [if_neg h.nonempty, if_neg (Nat.not_lt.2 h.size), if_neg hmax,
      if_neg (Nat.not_lt.2 h.inside), if_neg (not_not.2 h.same), h.find_eq_none, if_neg hfree,
      if_neg (Nat.not_le.2 h.count), if_neg hroom]

/-- A frame that is refused, other than for its hash, leaves every transfer that is not timed out as
it was, except that a fragment for which there is no room has evicted what could be evicted. -/
theorem rejected_frame_harmless_iff (hash : Bytes → TransferId) (r : Reassembler P)
    (h : r.Accounted) (peer : P) (bytes : Bytes) (now : Nat) (e : FrameError)
    (herr : (r.accept hash peer bytes now).2.outcome = .error e) (hne : e ≠ .hashMismatch) :
    (∀ p i, (r.accept hash peer bytes now).1.transfer p i =
        (r.transfer p i).filter fun t => now - t.lastActivity < r.limits.reassemblyTtl) ↔
      ∀ f t, fragmentInput bytes = some f → (r.expire now).1.transfer peer f.id = some t →
        Lacks r.limits t f → ¬r.limits.Holds (t.retainedBytes + f.bytes.length) →
          (r.expire now).1.Alone peer f.id f.bytes.length := by
  have hexpired := h.expire now
  simp only [← transfer_expire]
  rw [accept_state]
  cases hf : fragmentInput bytes with
  | none =>
    simp only [Option.elim_none, implies_true, reduceCtorEq, false_implies]
  | some f =>
    rw [accept_outcome hf] at herr
    -- the answer is that of the transfer alone, so the two counts decide whether room was missing
    have hcapacity : ∀ t, (r.expire now).1.transfer peer f.id = some t →
        (e = .reassemblyCapacity ↔
          Lacks r.limits t f ∧ ¬r.limits.Holds (t.retainedBytes + f.bytes.length)) := by
      intro t ht
      have hanswer := congrArg Prod.snd (acceptFragment_offer hash hexpired.balanced peer f now)
      rw [ht, limits_expire] at hanswer
      rw [← offer_capacity_iff hash, ← Option.map_some, ← hanswer]
      simp only [herr, Except.error.injEq]
    simp only [Option.elim_some, Option.some.injEq]
    rcases acceptFragment_refused hexpired herr hne with
      ⟨hsame, hnone⟩ | ⟨⟨t, ht, _⟩, hcap, hroom, hstate⟩
    · rw [hsame]
      refine iff_of_true (fun _ _ => rfl) ?_
      rintro _ t rfl ht hlacks hfull
      rw [hnone ((hcapacity t ht).2 ⟨hlacks, hfull⟩)] at ht
      cases ht
    · rw [hstate, makeByteRoom_harmless_iff hexpired.balanced hroom]
      obtain ⟨hlacks, hfull⟩ := (hcapacity t ht).1 hcap
      exact ⟨fun ha _ _ hf _ _ _ => hf ▸ ha, fun ha => ha f t rfl ht hlacks hfull⟩

theorem rejected_frame_harmless_iff_alone :
    let hash : Bytes → TransferId := fun _ => ⟨List.replicate 32 0, List.length_replicate⟩
    let frame (o : Nat) (b : Bytes) : Bytes := fragmentFrame (hash []) 9 o b
    let r : Reassembler Nat :=
      (forIdentity ⟨9, 9, 2, 3, 9, 10⟩ : Reassembler Nat).run hash [.accept 1 (frame 0 [5, 5]) 0]
    (r.accept hash 1 (frame 2 [5, 5]) 0).2.outcome = .error .reassemblyCapacity ∧
      ((∀ p i, (r.accept hash 1 (frame 2 [5, 5]) 0).1.transfer p i =
          (r.transfer p i).filter fun t => 0 - t.lastActivity < r.limits.reassemblyTtl) ↔
        ∀ f t, fragmentInput (frame 2 [5, 5]) = some f → (r.expire 0).1.transfer 1 f.id = some t →
          Lacks r.limits t f → ¬r.limits.Holds (t.retainedBytes + f.bytes.length) →
            (r.expire 0).1.Alone 1 f.id f.bytes.length) := by
  intro hash frame r
  have herr : (r.accept hash 1 (frame 2 [5, 5]) 0).2.outcome = .error .reassemblyCapacity := by
    decide +kernel
  refine ⟨herr, rejected_frame_harmless_iff hash r ?_ 1 (frame 2 [5, 5]) 0 .reassemblyCapacity herr
    nofun⟩
  exact (accounted_forIdentity _).run _

/-- Three bytes for the peer: two are held, one more belongs to another transfer. Two further bytes
can never fit, but the other transfer is evicted before they are refused. -/
theorem rejected_frame_evicts :
    let hash : Bytes → TransferId := fun _ => ⟨List.replicate 32 0, List.length_replicate⟩
    let other : TransferId := ⟨List.replicate 32 1, List.length_replicate⟩
    let frame (o : Nat) (b : Bytes) : Bytes := fragmentFrame (hash []) 9 o b
    let r : Reassembler Nat := (forIdentity ⟨9, 9, 2, 3, 9, 10⟩ : Reassembler Nat).run hash
      [.accept 1 (frame 0 [5, 5]) 0, .accept 1 (fragmentFrame other 9 0 [7]) 0]
    (r.transfer 1 other).isSome ∧
      (r.accept hash 1 (frame 2 [5, 5]) 0).2.outcome = .error .reassemblyCapacity ∧
      (r.accept hash 1 (frame 2 [5, 5]) 0).2.expiredTransfers = 0 ∧
      (r.accept hash 1 (frame 2 [5, 5]) 0).2.evictedTransfers = 1 ∧
      ((r.accept hash 1 (frame 2 [5, 5]) 0).1.transfer 1 other).isNone := by
  decide +kernel

end Reconcile.Reassembler
