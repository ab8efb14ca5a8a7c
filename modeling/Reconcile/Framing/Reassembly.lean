import Mathlib.Data.Prod.Lex
import Reconcile.Framing
import Reconcile.Lib.Evict
import Reconcile.Lib.HashMap

namespace Reconcile
open Lib
set_option autoImplicit true

/-- An incomplete message. Its fragments are in offset order, inside the message and apart from each
other, and their bytes are counted. -/
structure Transfer where
  totalLen : Nat
  fragments : List (Nat × Bytes)
  retainedBytes : Nat
  lastActivity : Nat
  lastMissingRequest : Option Nat
  spaced : Pieces.Spaced 0 fragments totalLen
  retained_eq : retainedBytes = Pieces.size fragments

namespace Transfer

def new (totalLen now : Nat) : Transfer where
  totalLen := totalLen
  fragments := []
  retainedBytes := 0
  lastActivity := now
  lastMissingRequest := none
  spaced := Nat.zero_le totalLen
  retained_eq := rfl

/-- A fragment with bytes, inside the message, that no retained fragment overlaps. -/
structure Fits (t : Transfer) (offset : Nat) (bytes : Bytes) : Prop where
  nonempty : bytes ≠ []
  inside : offset + bytes.length ≤ t.totalLen
  free : Pieces.overlaps t.fragments offset (offset + bytes.length) = false

theorem Fits.disjoint {t : Transfer} (h : t.Fits o b) :
    ∀ p ∈ t.fragments, p.1 + p.2.length ≤ o ∨ o + b.length ≤ p.1 := by
  have hpos := List.length_pos_iff.2 h.nonempty
  exact t.spaced.apart (Nat.lt_add_of_pos_right hpos) h.free

theorem Fits.offset_ne {t : Transfer} (h : t.Fits o b) : ∀ p ∈ t.fragments, p.1 ≠ o := by
  intro p hp
  have hpos := t.spaced.pos hp
  have hb := List.length_pos_iff.2 h.nonempty
  have hd := h.disjoint p hp
  omega

def insert (t : Transfer) (offset : Nat) (bytes : Bytes) (now : Nat) (h : t.Fits offset bytes) :
    Transfer where
  totalLen := t.totalLen
  fragments := Pieces.place offset bytes t.fragments
  retainedBytes := t.retainedBytes + bytes.length
  lastActivity := now
  lastMissingRequest := t.lastMissingRequest
  spaced := t.spaced.place (Nat.zero_le offset) h.nonempty h.inside h.disjoint
  retained_eq := by rw [t.retained_eq, Pieces.size_place h.offset_ne]

def touch (t : Transfer) (now : Nat) : Transfer := { t with lastActivity := now }

@[simp] theorem fragments_touch (t : Transfer) (now : Nat) : (t.touch now).fragments = t.fragments :=
  rfl

end Transfer

structure PeerState where
  transfers : HashMap TransferId Transfer
  retainedBytes : Nat

def PeerState.without (state : PeerState) (id : TransferId) : Option PeerState :=
  match state.transfers.lookup id with
  | none => if state.transfers.len = 0 then none else some state
  | some t =>
    if HashMap.len (state.transfers.erase id) = 0 then none
    else some ⟨state.transfers.erase id, state.retainedBytes - t.retainedBytes⟩

theorem PeerState.lookup_without (state : PeerState) (id i : TransferId) :
    ((state.without id).bind fun s => s.transfers.lookup i) =
      if i = id then none else state.transfers.lookup i := by
  have hempty : ∀ m : HashMap TransferId Transfer, m.len = 0 → m.lookup i = none := by
    intro m hm
    have he : m = ∅ := AList.ext (List.length_eq_zero_iff.1 hm)
    rw [he, AList.lookup_empty]
  unfold without
  split
  · next hn =>
    split
    · next hm => rw [hempty _ hm, ite_self, Option.bind_none]
    · split
      · next hi => rw [Option.bind_some, hi, hn]
      · rfl
  · split
    · next hm => rw [← HashMap.lookup_erase_eq, hempty _ hm, Option.bind_none]
    · exact HashMap.lookup_erase_eq _ _ _

structure Reassembler (P : Type) where
  limits : ReassemblyLimits
  peers : HashMap P PeerState
  totalRetainedBytes : Nat

inductive ReceiveOutcome where
  | complete (payload : Bytes)
  | pending
  | duplicate
  deriving DecidableEq, Repr

structure ReceiveReport where
  outcome : Except FrameError ReceiveOutcome
  expiredTransfers : Nat
  evictedTransfers : Nat
  retainedBytes : Nat
  fragmentReceived : Bool

namespace Reassembler

variable {P : Type} [LinearOrder P]

def forIdentity (limits : ReassemblyLimits) : Reassembler P := ⟨limits, ∅, 0⟩

def transfer (r : Reassembler P) (peer : P) (id : TransferId) : Option Transfer :=
  (r.peers.lookup peer).bind fun state => state.transfers.lookup id

def transferCount (r : Reassembler P) (peer : P) : Nat :=
  match r.peers.lookup peer with
  | some state => state.transfers.len
  | none => 0

def peerBytes (r : Reassembler P) (peer : P) : Nat :=
  match r.peers.lookup peer with
  | some state => state.retainedBytes
  | none => 0

def removeTransfer (r : Reassembler P) (peer : P) (id : TransferId) : Reassembler P :=
  match r.peers.lookup peer with
  | none => r
  | some state =>
    match state.transfers.lookup id with
    | none => if state.transfers.len = 0 then { r with peers := r.peers.erase peer } else r
    | some t =>
      { r with
        peers :=
          if HashMap.len (state.transfers.erase id) = 0 then r.peers.erase peer
          else r.peers.insert peer
            ⟨state.transfers.erase id, state.retainedBytes - t.retainedBytes⟩
        totalRetainedBytes := r.totalRetainedBytes - t.retainedBytes }

def removeTransfers (r : Reassembler P) (keys : List (P × TransferId)) : Reassembler P :=
  keys.foldl (fun r k => r.removeTransfer k.1 k.2) r

def held (r : Reassembler P) : List ((P × TransferId) × Transfer) :=
  r.peers.toList.flatMap fun s => s.2.transfers.toList.map fun t => ((s.1, t.1), t.2)

def expired (r : Reassembler P) (now : Nat) : List (P × TransferId) :=
  (r.held.filter fun t => r.limits.reassemblyTtl ≤ now - t.2.lastActivity).map Prod.fst

/-- Remove the transfers whose inactivity timeout elapsed, and count them. -/
def expire (r : Reassembler P) (now : Nat) : Reassembler P × Nat :=
  (r.removeTransfers (r.expired now), (r.expired now).length)

/-- The peer's transfer that was active least recently, the excluded one apart. -/
def oldestForPeer (r : Reassembler P) (peer : P) (exclude : Option TransferId) :
    Option TransferId :=
  match r.peers.lookup peer with
  | none => none
  | some state =>
    ((state.transfers.toList.filter fun t => some t.1 ≠ exclude).map
      fun t => toLex (t.2.lastActivity, t.1)).min?.map fun a => (ofLex a).2

def oldestGlobal (r : Reassembler P) (exclude : Option (P × TransferId)) :
    Option (P × TransferId) :=
  ((r.held.filter fun t => some t.1 ≠ exclude).map
    fun t => toLex (t.2.lastActivity, toLex t.1)).min?.map fun a => ofLex (ofLex a).2

def makeTransferSlot (r : Reassembler P) (peer : P) (protectedId : TransferId) (incoming : Nat)
    (evicted : Nat) : Reassembler P × Nat × Except FrameError Unit :=
  if r.limits.maxReassemblyBytesPerPeer < incoming ∨ r.limits.maxTotalReassemblyBytes < incoming
  then (r, evicted, .error .reassemblyCapacity)
  else
    let room := evictWhile
      (fun r => r.limits.maxIncompleteTransfersPerPeer ≤ r.transferCount peer)
      (fun r => r.oldestForPeer peer (some protectedId))
      (fun r id => r.removeTransfer peer id) r.held.length r evicted
    (room.1, room.2.1, if room.2.2 then .ok () else .error .reassemblyCapacity)

def makeByteRoom (r : Reassembler P) (peer : P) (protectedId : TransferId) (incoming : Nat)
    (evicted : Nat) : Reassembler P × Nat × Except FrameError Unit :=
  let peerRoom := evictWhile
    (fun r => r.limits.maxReassemblyBytesPerPeer < r.peerBytes peer + incoming)
    (fun r => r.oldestForPeer peer (some protectedId))
    (fun r id => r.removeTransfer peer id) r.held.length r evicted
  if peerRoom.2.2 then
    let room := evictWhile
      (fun r => r.limits.maxTotalReassemblyBytes < r.totalRetainedBytes + incoming)
      (fun r => r.oldestGlobal (some (peer, protectedId)))
      (fun r k => r.removeTransfer k.1 k.2) peerRoom.1.held.length peerRoom.1 peerRoom.2.1
    (room.1, room.2.1, if room.2.2 then .ok () else .error .reassemblyCapacity)
  else (peerRoom.1, peerRoom.2.1, .error .reassemblyCapacity)

def put (r : Reassembler P) (peer : P) (id : TransferId) (t : Transfer) (added : Nat) :
    Reassembler P :=
  let state := (r.peers.lookup peer).getD ⟨∅, 0⟩
  { r with
    peers := r.peers.insert peer ⟨state.transfers.insert id t, state.retainedBytes + added⟩
    totalRetainedBytes := r.totalRetainedBytes + added }

/-- Add a fragment to a transfer; the transfer is done when its bytes add up to its length. -/
def store (hash : Bytes → TransferId) (r : Reassembler P) (peer : P) (id : TransferId)
    (t : Transfer) (added : Nat) : Reassembler P × Except FrameError ReceiveOutcome :=
  let r := r.put peer id t added
  if t.retainedBytes ≠ t.totalLen then (r, .ok .pending)
  else if hash (Pieces.join t.fragments) ≠ id then
    (r.removeTransfer peer id, .error .hashMismatch)
  else (r.removeTransfer peer id, .ok (.complete (Pieces.join t.fragments)))

/-- A further fragment of a transfer that is held. The transfer is protected from eviction: it is the
same before and after room is made. -/
def extendTransfer (hash : Bytes → TransferId) (r : Reassembler P) (peer : P) (f : FragmentInput)
    (t : Transfer) (now : Nat) (hb : f.bytes ≠ [])
    (he : f.offset + f.bytes.length ≤ f.totalLen) :
    Reassembler P × Nat × Except FrameError ReceiveOutcome :=
  if ht : t.totalLen ≠ f.totalLen then (r, 0, .error .inconsistentMetadata)
  else
    match Pieces.find t.fragments f.offset with
    | some bytes =>
      if bytes = f.bytes then (r.put peer f.id (t.touch now) 0, 0, .ok .duplicate)
      else (r, 0, .error .overlappingFragment)
    | none =>
      if ho : Pieces.overlaps t.fragments f.offset (f.offset + f.bytes.length) = true then
        (r, 0, .error .overlappingFragment)
      else if r.limits.maxFragmentsPerMessage ≤ t.fragments.length then
        (r, 0, .error .tooManyFragments)
      else
        let room := r.makeByteRoom peer f.id f.bytes.length 0
        match room.2.2 with
        | .error e => (room.1, room.2.1, .error e)
        | .ok () =>
          let stored := room.1.store hash peer f.id
            (t.insert f.offset f.bytes now ⟨hb, by omega, Bool.not_eq_true _ ▸ ho⟩) f.bytes.length
          (stored.1, room.2.1, stored.2)

def openTransfer (hash : Bytes → TransferId) (r : Reassembler P) (peer : P) (f : FragmentInput)
    (now : Nat) (hb : f.bytes ≠ []) (he : f.offset + f.bytes.length ≤ f.totalLen) :
    Reassembler P × Nat × Except FrameError ReceiveOutcome :=
  let slot := r.makeTransferSlot peer f.id f.bytes.length 0
  match slot.2.2 with
  | .error e => (slot.1, slot.2.1, .error e)
  | .ok () =>
    let room := slot.1.makeByteRoom peer f.id f.bytes.length slot.2.1
    match room.2.2 with
    | .error e => (room.1, room.2.1, .error e)
    | .ok () =>
      let stored := room.1.store hash peer f.id
        ((Transfer.new f.totalLen now).insert f.offset f.bytes now ⟨hb, he, rfl⟩) f.bytes.length
      (stored.1, room.2.1, stored.2)

/-- The offset is a `u32`, so the end of a fragment never overflows. -/
def acceptFragment (hash : Bytes → TransferId) (r : Reassembler P) (peer : P) (f : FragmentInput)
    (now : Nat) : Reassembler P × Nat × Except FrameError ReceiveOutcome :=
  if hb : f.bytes = [] then (r, 0, .error .emptyFragment)
  else if r.limits.maxLogicalMessageSize < f.totalLen then
    (r, 0, .error .logicalMessageTooLarge)
  else if r.limits.maxFragmentsPerMessage = 0 then (r, 0, .error .tooManyFragments)
  else if he : f.totalLen < f.offset + f.bytes.length then
    (r, 0, .error .invalidFragmentBounds)
  else
    match r.transfer peer f.id with
    | some t => r.extendTransfer hash peer f t now hb (Nat.le_of_not_lt he)
    | none => r.openTransfer hash peer f now hb (Nat.le_of_not_lt he)

def report (r : Reassembler P) (outcome : Except FrameError ReceiveOutcome)
    (expired evicted : Nat) (fragment : Bool) : Reassembler P × ReceiveReport :=
  (r, ⟨outcome, expired, evicted, r.totalRetainedBytes, fragment⟩)

def accept (hash : Bytes → TransferId) (r : Reassembler P) (peer : P) (bytes : Bytes)
    (now : Nat) : Reassembler P × ReceiveReport :=
  let expiry := r.expire now
  match bytes with
  | [] => expiry.1.report (.error .empty) expiry.2 0 false
  | tag :: body =>
    if tag = completeTag then
      if expiry.1.limits.maxLogicalMessageSize < body.length then
        expiry.1.report (.error .logicalMessageTooLarge) expiry.2 0 false
      else expiry.1.report (.ok (.complete body)) expiry.2 0 false
    else if tag ≠ fragmentTag then expiry.1.report (.error (.unknownTag tag)) expiry.2 0 false
    else if h : fragmentHeaderLen ≤ bytes.length then
      let accepted := expiry.1.acceptFragment hash peer (readFragment bytes h) now
      accepted.1.report accepted.2.2 expiry.2 accepted.2.1 true
    else expiry.1.report (.error .truncatedFragmentHeader) expiry.2 0 true

variable {r : Reassembler P} {peer p : P} {id i : TransferId}

theorem lookup_removeTransfer (r : Reassembler P) (peer p : P) (id : TransferId) :
    (r.removeTransfer peer id).peers.lookup p =
      if p = peer then (r.peers.lookup peer).bind fun state => state.without id
      else r.peers.lookup p := by
  cases hl : r.peers.lookup peer with
  | none =>
    simp only [removeTransfer, hl, Option.bind_none]
    split
    · next hp => rw [hp, hl]
    · rfl
  | some state =>
    simp only [removeTransfer, hl, Option.bind_some, PeerState.without]
    cases state.transfers.lookup id with
    | none =>
      simp only
      split
      · exact HashMap.lookup_erase_eq _ _ _
      · split
        · next hp => rw [hp, hl]
        · rfl
    | some t =>
      simp only
      split
      · exact HashMap.lookup_erase_eq _ _ _
      · exact HashMap.lookup_insert_eq _ _ _ _

theorem transfer_removeTransfer (r : Reassembler P) (peer p : P) (id i : TransferId) :
    (r.removeTransfer peer id).transfer p i =
      if p = peer ∧ i = id then none else r.transfer p i := by
  rw [transfer, lookup_removeTransfer]
  by_cases hp : p = peer
  · subst hp
    simp only [if_true, true_and, transfer]
    cases r.peers.lookup p with
    | none => exact (ite_self _).symm
    | some state => exact state.lookup_without id i
  · rw [if_neg hp, if_neg fun h => hp h.1, transfer]

theorem totalRetainedBytes_removeTransfer_le (r : Reassembler P) (peer : P) (id : TransferId) :
    (r.removeTransfer peer id).totalRetainedBytes ≤ r.totalRetainedBytes := by
  unfold removeTransfer
  split
  · exact le_rfl
  split
  · split <;> exact le_rfl
  · exact Nat.sub_le _ _

theorem peerBytes_eq (r : Reassembler P) (p : P) :
    r.peerBytes p = (r.peers.lookup p).elim 0 PeerState.retainedBytes := by
  unfold peerBytes
  cases r.peers.lookup p <;> rfl

theorem transferCount_eq (r : Reassembler P) (p : P) :
    r.transferCount p = (r.peers.lookup p).elim 0 fun state => state.transfers.len := by
  unfold transferCount
  cases r.peers.lookup p <;> rfl

theorem elim_removeTransfer_le (f : PeerState → Nat) (r : Reassembler P) (peer p : P)
    (id : TransferId) (hf : ∀ state : PeerState, (state.without id).elim 0 f ≤ f state) :
    ((r.removeTransfer peer id).peers.lookup p).elim 0 f ≤ (r.peers.lookup p).elim 0 f := by
  rw [lookup_removeTransfer]
  split
  · next hp =>
    subst hp
    cases r.peers.lookup p with
    | none => exact le_rfl
    | some state => exact hf state
  · exact le_rfl

theorem peerBytes_removeTransfer_le (r : Reassembler P) (peer p : P) (id : TransferId) :
    (r.removeTransfer peer id).peerBytes p ≤ r.peerBytes p := by
  rw [peerBytes_eq, peerBytes_eq]
  apply elim_removeTransfer_le
  intro state
  unfold PeerState.without
  split
  · split
    · exact Nat.zero_le _
    · exact le_rfl
  · split
    · exact Nat.zero_le _
    · exact Nat.sub_le _ _

theorem transferCount_removeTransfer_le (r : Reassembler P) (peer p : P) (id : TransferId) :
    (r.removeTransfer peer id).transferCount p ≤ r.transferCount p := by
  rw [transferCount_eq, transferCount_eq]
  apply elim_removeTransfer_le
  intro state
  unfold PeerState.without
  split
  · split
    · exact Nat.zero_le _
    · exact le_rfl
  · split
    · exact Nat.zero_le _
    · apply HashMap.len_le_of_contains
      intro k hk
      rw [HashMap.contains_erase, Bool.and_eq_true] at hk
      exact hk.1

@[simp] theorem limits_removeTransfer (r : Reassembler P) (peer : P) (id : TransferId) :
    (r.removeTransfer peer id).limits = r.limits := by
  unfold removeTransfer
  split
  · rfl
  · split
    · split <;> rfl
    · rfl

theorem transfer_removeTransfers (keys : List (P × TransferId)) (r : Reassembler P) (p : P)
    (i : TransferId) :
    (r.removeTransfers keys).transfer p i = if (p, i) ∈ keys then none else r.transfer p i := by
  induction keys generalizing r with
  | nil => rfl
  | cons k keys ih =>
    rw [removeTransfers, List.foldl_cons, ← removeTransfers, ih, transfer_removeTransfer]
    by_cases hm : (p, i) ∈ keys
    · rw [if_pos hm, if_pos (List.mem_cons_of_mem k hm)]
    · by_cases hk : p = k.1 ∧ i = k.2
      · rw [if_neg hm, if_pos hk, if_pos (List.mem_cons.2 (.inl (Prod.ext hk.1 hk.2)))]
      · rw [if_neg hm, if_neg hk, if_neg]
        intro h
        rcases List.mem_cons.1 h with h | h
        · exact hk ⟨congrArg Prod.fst h, congrArg Prod.snd h⟩
        · exact hm h

@[simp] theorem limits_removeTransfers (keys : List (P × TransferId)) (r : Reassembler P) :
    (r.removeTransfers keys).limits = r.limits := by
  induction keys generalizing r with
  | nil => rfl
  | cons k keys ih =>
    rw [removeTransfers, List.foldl_cons, ← removeTransfers, ih, limits_removeTransfer]

theorem mem_held (r : Reassembler P) (k : P × TransferId) (t : Transfer) :
    (k, t) ∈ r.held ↔ r.transfer k.1 k.2 = some t := by
  simp only [held, List.mem_flatMap, List.mem_map, transfer, Option.bind_eq_some_iff]
  constructor
  · rintro ⟨s, hs, x, hx, he⟩
    cases he
    exact ⟨s.2, (HashMap.mem_toList _ _ _).1 hs, (HashMap.mem_toList _ _ _).1 hx⟩
  · rintro ⟨state, hs, ht⟩
    exact ⟨(k.1, state), (HashMap.mem_toList _ _ _).2 hs, (k.2, t),
      (HashMap.mem_toList _ _ _).2 ht, rfl⟩

/-- Expiry removes the transfers that were idle for the whole timeout, and no others. -/
theorem transfer_expire (r : Reassembler P) (now : Nat) (p : P) (i : TransferId) :
    (r.expire now).1.transfer p i =
      (r.transfer p i).filter fun t => now - t.lastActivity < r.limits.reassemblyTtl := by
  rw [expire, transfer_removeTransfers]
  have hmem : (p, i) ∈ r.expired now ↔
      ∃ t, r.transfer p i = some t ∧ r.limits.reassemblyTtl ≤ now - t.lastActivity := by
    simp only [expired, List.mem_map, List.mem_filter, decide_eq_true_eq, Prod.exists]
    constructor
    · rintro ⟨p', i', t, ⟨ht, hle⟩, he⟩
      cases he
      exact ⟨t, (mem_held r (p, i) t).1 ht, hle⟩
    · rintro ⟨t, ht, hle⟩
      exact ⟨p, i, t, ⟨(mem_held r (p, i) t).2 ht, hle⟩, rfl⟩
  cases ht : r.transfer p i with
  | none => exact ite_self _
  | some t =>
    rw [Option.filter_some]
    by_cases hle : r.limits.reassemblyTtl ≤ now - t.lastActivity
    · rw [if_pos (hmem.2 ⟨t, ht, hle⟩), if_neg (by simpa using hle)]
    · rw [if_neg, if_pos (by simpa using hle)]
      rintro hm
      obtain ⟨t', ht', hle'⟩ := hmem.1 hm
      rw [ht] at ht'
      cases ht'
      exact hle hle'

@[simp] theorem limits_expire (r : Reassembler P) (now : Nat) :
    (r.expire now).1.limits = r.limits :=
  limits_removeTransfers _ r

theorem oldestForPeer_some (h : r.oldestForPeer peer exclude = some id) :
    some id ≠ exclude ∧ (r.transfer peer id).isSome := by
  unfold oldestForPeer at h
  split at h
  · cases h
  · next state hs =>
    obtain ⟨a, ha, rfl⟩ := Option.map_eq_some_iff.1 h
    obtain ⟨t, ht, rfl⟩ := List.mem_map.1 (List.min?_mem ha)
    obtain ⟨hm, hne⟩ := List.mem_filter.1 ht
    refine ⟨of_decide_eq_true hne, ?_⟩
    rw [transfer, hs, Option.bind_some, ofLex_toLex, (HashMap.mem_toList _ _ _).1 hm]
    rfl

theorem oldestGlobal_some {k : P × TransferId} (h : r.oldestGlobal exclude = some k) :
    some k ≠ exclude ∧ (r.transfer k.1 k.2).isSome := by
  obtain ⟨a, ha, rfl⟩ := Option.map_eq_some_iff.1 h
  obtain ⟨t, ht, rfl⟩ := List.mem_map.1 (List.min?_mem ha)
  obtain ⟨hm, hne⟩ := List.mem_filter.1 ht
  refine ⟨of_decide_eq_true hne, ?_⟩
  rw [ofLex_toLex, ofLex_toLex, (mem_held r t.1 t.2).1 hm]
  rfl

/-- States reached by removing some transfers, the protected one never among them. -/
inductive Frees (peer : P) (id : TransferId) (r : Reassembler P) : Nat → Reassembler P → Prop where
  | start : Frees peer id r 0 r
  | remove (h : Frees peer id r n s) (hne : ¬ (q = peer ∧ j = id)) :
      Frees peer id r (n + 1) (s.removeTransfer q j)

theorem Frees.limits (h : Frees peer id r n s) : s.limits = r.limits := by
  induction h with
  | start => rfl
  | remove _ _ ih => rw [limits_removeTransfer, ih]

theorem Frees.transfer_self (h : Frees peer id r n s) : s.transfer peer id = r.transfer peer id := by
  induction h with
  | start => rfl
  | remove _ hne ih =>
    rw [transfer_removeTransfer, if_neg, ih]
    rintro ⟨rfl, rfl⟩
    exact hne ⟨rfl, rfl⟩

theorem Frees.transfer_sub (h : Frees peer id r n s) (ht : s.transfer p i = some t) :
    r.transfer p i = some t := by
  induction h with
  | start => exact ht
  | remove _ _ ih =>
    rw [transfer_removeTransfer] at ht
    split at ht
    · cases ht
    · exact ih ht

theorem Frees.eq_of_zero (h : Frees peer id r 0 s) : s = r := by
  cases h
  rfl

theorem Frees.evictForPeer (h : Frees peer id r n s) (full : Reassembler P → Bool) (fuel : Nat) :
    let room := evictWhile full (fun r => r.oldestForPeer peer (some id))
      (fun r id => r.removeTransfer peer id) fuel s n
    Frees peer id r room.2.1 room.1 := by
  apply evictWhile_invariant (Frees peer id r) _ _ _ _ h
  intro n s k hs hk
  refine hs.remove fun he => (oldestForPeer_some hk).1 ?_
  rw [he.2]

theorem Frees.evictGlobal (h : Frees peer id r n s) (full : Reassembler P → Bool) (fuel : Nat) :
    let room := evictWhile full (fun r => r.oldestGlobal (some (peer, id)))
      (fun r k => r.removeTransfer k.1 k.2) fuel s n
    Frees peer id r room.2.1 room.1 := by
  apply evictWhile_invariant (Frees peer id r) _ _ _ _ h
  intro n s k hs hk
  refine hs.remove fun he => (oldestGlobal_some hk).1 ?_
  rw [← he.1, ← he.2]

theorem Frees.makeTransferSlot (h : Frees peer id r n s) (incoming : Nat) :
    Frees peer id r (s.makeTransferSlot peer id incoming n).2.1
      (s.makeTransferSlot peer id incoming n).1 := by
  unfold Reassembler.makeTransferSlot
  split
  · exact h
  · exact h.evictForPeer _ _

theorem Frees.makeByteRoom (h : Frees peer id r n s) (incoming : Nat) :
    Frees peer id r (s.makeByteRoom peer id incoming n).2.1
      (s.makeByteRoom peer id incoming n).1 := by
  unfold Reassembler.makeByteRoom
  simp only
  split
  · exact (h.evictForPeer _ _).evictGlobal _ _
  · exact h.evictForPeer _ _

theorem makeByteRoom_invariant (I : Reassembler P → Prop)
    (hI : ∀ r p i, I r → I (r.removeTransfer p i)) (h : I r) (peer : P) (id : TransferId)
    (incoming n : Nat) : I (r.makeByteRoom peer id incoming n).1 := by
  have hpeer (full : Reassembler P → Bool) (fuel : Nat) :
      I (evictWhile full (fun r => r.oldestForPeer peer (some id))
        (fun r id => r.removeTransfer peer id) fuel r n).1 :=
    evictWhile_invariant (fun _ s => I s) (fun _ s k hs _ => hI s peer k hs) fuel r n h
  unfold makeByteRoom
  simp only
  split
  · exact evictWhile_invariant (fun _ s => I s) (fun _ s k hs _ => hI s k.1 k.2 hs) _ _ _ (hpeer _ _)
  · exact hpeer _ _

/-- Room for `n` more bytes of a transfer, and for the transfer itself if it is new. -/
structure Room (s : Reassembler P) (peer : P) (id : TransferId) (n : Nat) : Prop where
  slot : s.transfer peer id = none →
    s.transferCount peer < s.limits.maxIncompleteTransfersPerPeer
  peerBytes : s.peerBytes peer + n ≤ s.limits.maxReassemblyBytesPerPeer
  bytes : s.totalRetainedBytes + n ≤ s.limits.maxTotalReassemblyBytes

theorem makeTransferSlot_ok (h : (r.makeTransferSlot peer id incoming n).2.2 = .ok ()) :
    (r.makeTransferSlot peer id incoming n).1.transferCount peer <
      (r.makeTransferSlot peer id incoming n).1.limits.maxIncompleteTransfersPerPeer := by
  unfold makeTransferSlot at h ⊢
  split at h
  · cases h
  next hbig =>
  rw [if_neg hbig]
  simp only at h ⊢
  split at h
  · next hroom =>
    have hfull := evictWhile_room hroom
    exact Nat.lt_of_not_le (of_decide_eq_false hfull)
  · cases h

theorem makeByteRoom_ok (h : (r.makeByteRoom peer id incoming n).2.2 = .ok ()) :
    (r.makeByteRoom peer id incoming n).1.peerBytes peer + incoming ≤
        (r.makeByteRoom peer id incoming n).1.limits.maxReassemblyBytesPerPeer ∧
      (r.makeByteRoom peer id incoming n).1.totalRetainedBytes + incoming ≤
        (r.makeByteRoom peer id incoming n).1.limits.maxTotalReassemblyBytes := by
  unfold makeByteRoom at h ⊢
  simp only at h ⊢
  split at h
  · next hpeer =>
    rw [if_pos hpeer]
    simp only at h ⊢
    split at h
    · next hroom =>
      have hfull := evictWhile_room hroom
      have hfirst := evictWhile_room hpeer
      have hfirst := Nat.le_of_not_lt (of_decide_eq_false hfirst)
      refine ⟨?_, Nat.le_of_not_lt (of_decide_eq_false hfull)⟩
      -- the second loop can only take more from the peer
      refine evictWhile_invariant (fun _ (s : Reassembler P) =>
        s.peerBytes peer + incoming ≤ s.limits.maxReassemblyBytesPerPeer) ?_ _ _ _ hfirst
      intro _ s k hs _
      have hle := peerBytes_removeTransfer_le s k.1 peer k.2
      rw [limits_removeTransfer]
      omega
    · cases h
  · cases h

theorem makeTransferSlot_error (h : (r.makeTransferSlot peer id incoming n).2.2 = .error e) :
    e = .reassemblyCapacity := by
  unfold makeTransferSlot at h
  split at h
  · cases h
    rfl
  · simp only at h
    split at h
    · cases h
    · cases h
      rfl

theorem makeByteRoom_error (h : (r.makeByteRoom peer id incoming n).2.2 = .error e) :
    e = .reassemblyCapacity := by
  unfold makeByteRoom at h
  simp only at h
  split at h
  · simp only at h
    split at h
    · cases h
    · cases h
      rfl
  · cases h
    rfl

theorem transfer_put (r : Reassembler P) (peer p : P) (id i : TransferId) (t : Transfer)
    (added : Nat) :
    (r.put peer id t added).transfer p i =
      if p = peer ∧ i = id then some t else r.transfer p i := by
  simp only [put, transfer, HashMap.lookup_insert_eq]
  by_cases hp : p = peer
  · subst hp
    rw [if_pos rfl, Option.bind_some, HashMap.lookup_insert_eq]
    simp only [true_and]
    split
    · rfl
    · cases hl : r.peers.lookup p with
      | none => exact AList.lookup_empty i
      | some state => rfl
  · rw [if_neg hp, if_neg fun h => hp h.1]

@[simp] theorem limits_put (r : Reassembler P) (peer : P) (id : TransferId) (t : Transfer)
    (added : Nat) : (r.put peer id t added).limits = r.limits := rfl

/-- A transfer that is complete leaves, whatever its hash. -/
theorem store_state (hash : Bytes → TransferId) (r : Reassembler P) (peer : P) (id : TransferId)
    (t : Transfer) (added : Nat) : (r.store hash peer id t added).1 =
      if t.retainedBytes = t.totalLen then (r.put peer id t added).removeTransfer peer id
      else r.put peer id t added := by
  unfold store
  simp only
  split
  · rfl
  · next he =>
    rw [if_pos (not_not.1 he)]
    split <;> rfl

theorem limits_store (hash : Bytes → TransferId) (r : Reassembler P) (peer : P) (id : TransferId)
    (t : Transfer) (added : Nat) : (r.store hash peer id t added).1.limits = r.limits := by
  rw [store_state]
  split
  · exact limits_removeTransfer _ _ _
  · rfl

theorem transfer_store (hash : Bytes → TransferId) (r : Reassembler P) (peer p : P)
    (id i : TransferId) (t : Transfer) (added : Nat) :
    (r.store hash peer id t added).1.transfer p i =
      if p = peer ∧ i = id then
        if t.retainedBytes = t.totalLen then none else some t
      else r.transfer p i := by
  rw [store_state]
  split
  · rw [transfer_removeTransfer, transfer_put]
    split <;> rfl
  · exact transfer_put _ _ _ _ _ _ _

/-- What accepting a fragment can do: refuse it, find it again, or store it. -/
inductive Accepted (hash : Bytes → TransferId) (r : Reassembler P) (peer : P) (f : FragmentInput)
    (now : Nat) : Reassembler P × Nat × Except FrameError ReceiveOutcome → Prop where
  | refused (h : Frees peer f.id r n s) (e : FrameError) :
      Accepted hash r peer f now (s, n, .error e)
  | duplicate (ht : r.transfer peer f.id = some t) (hm : (f.offset, f.bytes) ∈ t.fragments) :
      Accepted hash r peer f now (r.put peer f.id (t.touch now) 0, 0, .ok .duplicate)
  | stored (h : Frees peer f.id r n s)
      (ht : (r.transfer peer f.id).getD (.new f.totalLen now) = t) (hlen : t.totalLen = f.totalLen)
      (hfits : t.Fits f.offset f.bytes) :
      Accepted hash r peer f now
        ((s.store hash peer f.id (t.insert f.offset f.bytes now hfits) f.bytes.length).1, n,
          (s.store hash peer f.id (t.insert f.offset f.bytes now hfits) f.bytes.length).2)

structure Admitted (r s : Reassembler P) (peer : P) (f : FragmentInput) (t : Transfer) : Prop where
  size : f.totalLen ≤ r.limits.maxLogicalMessageSize
  count : t.fragments.length < r.limits.maxFragmentsPerMessage
  room : s.Room peer f.id f.bytes.length

inductive Handled (hash : Bytes → TransferId) (r : Reassembler P) (peer : P) (f : FragmentInput)
    (now : Nat) : Reassembler P × Nat × Except FrameError ReceiveOutcome → Prop where
  | refused (h : Frees peer f.id r n s) (e : FrameError) :
      Handled hash r peer f now (s, n, .error e)
  | duplicate (ht : r.transfer peer f.id = some t) (hm : (f.offset, f.bytes) ∈ t.fragments) :
      Handled hash r peer f now (r.put peer f.id (t.touch now) 0, 0, .ok .duplicate)
  | stored (h : Frees peer f.id r n s)
      (ht : (r.transfer peer f.id).getD (.new f.totalLen now) = t) (hlen : t.totalLen = f.totalLen)
      (hfits : t.Fits f.offset f.bytes) (ha : Admitted r s peer f t) :
      Handled hash r peer f now
        ((s.store hash peer f.id (t.insert f.offset f.bytes now hfits) f.bytes.length).1, n,
          (s.store hash peer f.id (t.insert f.offset f.bytes now hfits) f.bytes.length).2)

theorem Handled.accepted {hash : Bytes → TransferId} {f : FragmentInput}
    (h : Handled hash r peer f now out) : Accepted hash r peer f now out := by
  cases h with
  | refused h e => exact .refused h e
  | duplicate ht hm => exact .duplicate ht hm
  | stored h ht hlen hfits _ => exact .stored h ht hlen hfits

theorem extendTransfer_handled {hash : Bytes → TransferId} {f : FragmentInput} {t : Transfer}
    (ht : r.transfer peer f.id = some t) (hb : f.bytes ≠ [])
    (he : f.offset + f.bytes.length ≤ f.totalLen)
    (hsize : f.totalLen ≤ r.limits.maxLogicalMessageSize) :
    Handled hash r peer f now (r.extendTransfer hash peer f t now hb he) := by
  have hstart : Frees peer f.id r 0 r := .start
  unfold extendTransfer
  split
  · exact .refused hstart _
  next hlen =>
  split
  · next bytes hf =>
    split
    · next hbytes =>
      subst hbytes
      exact .duplicate ht (t.spaced.find_eq.1 hf)
    · exact .refused hstart _
  split
  · exact .refused hstart _
  split
  · exact .refused hstart _
  next hcount =>
  simp only
  split
  · exact .refused (hstart.makeByteRoom _) _
  · next hok =>
    have hfrees := hstart.makeByteRoom f.bytes.length
    obtain ⟨hpeer, hbytes⟩ := makeByteRoom_ok hok
    have hslot : (r.makeByteRoom peer f.id f.bytes.length 0).1.transfer peer f.id = some t :=
      hfrees.transfer_self.trans ht
    refine .stored hfrees ?_ (not_not.1 hlen) _ ⟨hsize, Nat.lt_of_not_le hcount, ?_, hpeer, hbytes⟩
    · rw [ht, Option.getD_some]
    · rw [hslot]
      exact nofun

theorem openTransfer_handled {hash : Bytes → TransferId} {f : FragmentInput}
    (ht : r.transfer peer f.id = none) (hb : f.bytes ≠ [])
    (he : f.offset + f.bytes.length ≤ f.totalLen)
    (hsize : f.totalLen ≤ r.limits.maxLogicalMessageSize)
    (hcount : 0 < r.limits.maxFragmentsPerMessage) :
    Handled hash r peer f now (r.openTransfer hash peer f now hb he) := by
  have hslot : Frees peer f.id r _ _ := (Frees.start : Frees peer f.id r 0 r).makeTransferSlot
    f.bytes.length
  unfold openTransfer
  simp only
  split
  · exact .refused hslot _
  next hok =>
  split
  · exact .refused (hslot.makeByteRoom _) _
  · next hroom =>
    obtain ⟨hpeer, hbytes⟩ := makeByteRoom_ok hroom
    have hlt := makeByteRoom_invariant (fun s : Reassembler P =>
      s.transferCount peer < s.limits.maxIncompleteTransfersPerPeer)
      (fun s p i hs => by
        rw [limits_removeTransfer]
        exact Nat.lt_of_le_of_lt (transferCount_removeTransfer_le s p peer i) hs)
      (makeTransferSlot_ok hok) peer f.id f.bytes.length
      (r.makeTransferSlot peer f.id f.bytes.length 0).2.1
    refine .stored (hslot.makeByteRoom _) ?_ rfl _ ⟨hsize, hcount, fun _ => hlt, hpeer, hbytes⟩
    rw [ht, Option.getD_none]

theorem acceptFragment_handled (hash : Bytes → TransferId) (r : Reassembler P) (peer : P)
    (f : FragmentInput) (now : Nat) :
    Handled hash r peer f now (r.acceptFragment hash peer f now) := by
  unfold acceptFragment
  split
  · exact .refused .start _
  split
  · exact .refused .start _
  next hsize =>
  split
  · exact .refused .start _
  next hcount =>
  split
  · exact .refused .start _
  split
  · next t ht => exact extendTransfer_handled ht _ _ (Nat.le_of_not_lt hsize)
  · next ht =>
    exact openTransfer_handled ht _ _ (Nat.le_of_not_lt hsize) (Nat.pos_of_ne_zero hcount)

theorem acceptFragment_accepted (hash : Bytes → TransferId) (r : Reassembler P) (peer : P)
    (f : FragmentInput) (now : Nat) :
    Accepted hash r peer f now (r.acceptFragment hash peer f now) :=
  (acceptFragment_handled hash r peer f now).accepted

def fragmentInput (bytes : Bytes) : Option FragmentInput :=
  if h : bytes.head? = some fragmentTag ∧ fragmentHeaderLen ≤ bytes.length then
    some (readFragment bytes h.2)
  else none

theorem accept_fragment {hash : Bytes → TransferId} (bytes : Bytes)
    (h : fragmentHeaderLen ≤ bytes.length) (htag : bytes.head? = some fragmentTag) :
    r.accept hash peer bytes now =
      let out := (r.expire now).1.acceptFragment hash peer (readFragment bytes h) now
      out.1.report out.2.2 (r.expire now).2 out.2.1 true := by
  cases bytes with
  | nil => cases htag
  | cons tag body =>
    cases htag
    simp only [accept, show fragmentTag ≠ completeTag by decide, ne_eq, not_true_eq_false, if_false,
      dif_pos h]

/-- Every frame expires what is idle; only a fragment does more. -/
theorem accept_state (hash : Bytes → TransferId) (r : Reassembler P) (peer : P) (bytes : Bytes)
    (now : Nat) : (r.accept hash peer bytes now).1 =
      (fragmentInput bytes).elim (r.expire now).1
        fun f => ((r.expire now).1.acceptFragment hash peer f now).1 := by
  unfold fragmentInput
  split
  · next h =>
    rw [accept_fragment bytes h.2 h.1]
    rfl
  · next h =>
    cases bytes with
    | nil => rfl
    | cons tag body =>
      simp only [accept]
      split
      · split <;> rfl
      · next hc =>
        split
        · rfl
        · next hf =>
          rw [dif_neg]
          · rfl
          · intro hlen
            exact h ⟨congrArg some (not_not.1 hf), hlen⟩

theorem accept_outcome {hash : Bytes → TransferId} {f : FragmentInput}
    (hf : fragmentInput bytes = some f) : (r.accept hash peer bytes now).2.outcome =
      ((r.expire now).1.acceptFragment hash peer f now).2.2 := by
  unfold fragmentInput at hf
  split at hf
  · next h =>
    cases hf
    rw [accept_fragment bytes h.2 h.1]
    rfl
  · cases hf

theorem Accepted.limits {hash : Bytes → TransferId} {f : FragmentInput}
    (h : Accepted hash r peer f now out) : out.1.limits = r.limits := by
  cases h with
  | refused h e => exact h.limits
  | duplicate ht hm => rfl
  | stored h ht hlen hfits => exact (limits_store _ _ _ _ _ _).trans h.limits

theorem limits_accept (hash : Bytes → TransferId) (r : Reassembler P) (peer : P) (bytes : Bytes)
    (now : Nat) : (r.accept hash peer bytes now).1.limits = r.limits := by
  rw [accept_state]
  cases fragmentInput bytes with
  | none => exact limits_expire r now
  | some f => exact (acceptFragment_accepted hash _ peer f now).limits.trans (limits_expire r now)

/-- A fragment of one transfer that evicts nothing leaves the others alone. -/
theorem Accepted.other {hash : Bytes → TransferId} {f : FragmentInput}
    (h : Accepted hash r peer f now out) (hne : ¬ (p = peer ∧ i = f.id)) (h0 : out.2.1 = 0) :
    out.1.transfer p i = r.transfer p i := by
  cases h with
  | refused h e =>
    cases h0
    rw [h.eq_of_zero]
  | duplicate ht hm => rw [transfer_put, if_neg hne]
  | stored h ht hlen hfits =>
    cases h0
    rw [transfer_store, if_neg hne, h.eq_of_zero]

end Reassembler

end Reconcile
