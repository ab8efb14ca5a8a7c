import Reconcile.Framing.Completeness
import Reconcile.Framing.Slot
import Reconcile.Framing.Validation

namespace Reconcile
open Lib
set_option autoImplicit true

namespace Slot

variable {hash : Bytes → TransferId} {limits : ReassemblyLimits} {f : FragmentInput}
  {slot : Option Slot}

def ofPieces (n : Nat) (ps : List (Nat × Bytes)) : Option Slot :=
  if ps = [] then none else some ⟨n, ps⟩

theorem offer_next (hs : Sendable limits c payload) (hcut : originals c payload = pre ++ p :: post)
    (hslots : 0 < limits.maxIncompleteTransfersPerPeer) (hroom : limits.Holds payload.length) :
    offer hash limits (ofPieces payload.length pre) ⟨hash payload, payload.length, p.1, p.2⟩ =
      settle hash (hash payload) ⟨payload.length, pre ++ [p]⟩ := by
  have hspaced := Pieces.cut_spaced hs.pos 0 payload
  rw [← originals, hcut, Nat.zero_add] at hspaced
  have hp : p ∈ pre ++ p :: post := List.mem_append_right _ List.mem_cons_self
  obtain ⟨_, hne, hend⟩ := hspaced.mem hp
  have hpre : Pieces.Spaced 0 pre payload.length := hspaced.sublist (List.sublist_append_left _ _)
  have hbefore : ∀ q ∈ pre, q.2 ≠ [] ∧ q.1 + q.2.length ≤ p.1 := by
    intro q hq
    refine ⟨(hpre.mem hq).2.1, ?_⟩
    exact (List.pairwise_append.1 hspaced.pairwise).2.2 q hq p List.mem_cons_self
  have hfree : Pieces.overlaps pre p.1 (p.1 + p.2.length) = false := by
    have hpos := List.length_pos_iff.2 hne
    rw [← Bool.not_eq_true, hpre.overlaps_iff (by omega)]
    rintro ⟨q, hq, _, hgt⟩
    have hle := (hbefore q hq).2
    omega
  have hfind : Pieces.find pre p.1 = none := by
    rw [Option.eq_none_iff_forall_ne_some]
    intro b hb
    have hm : (p.1, b) ∈ pre := hpre.find_eq.1 hb
    have hle := (hbefore (p.1, b) hm).2
    have hpos := hpre.pos hm
    simp only at hle hpos
    omega
  have hlength : pre.length < limits.maxFragmentsPerMessage := by
    have hall := Pieces.length_cut c 0 payload
    have hcount := hs.count
    rw [← originals, hcut, List.length_append, List.length_cons] at hall
    omega
  have hsize : Pieces.size pre + p.2.length ≤ payload.length := by
    have hfirst : Pieces.Spaced 0 (pre ++ [p]) payload.length := by
      refine hspaced.sublist (List.Sublist.append_left ?_ pre)
      exact List.Sublist.cons_cons p (List.nil_sublist post)
    have hle := hfirst.size_le
    rw [Pieces.size_append] at hle
    simpa only [Nat.zero_add, Pieces.size, List.map_cons, List.map_nil, List.sum_cons, List.sum_nil,
      Nat.add_zero] using hle
  have hholds : ∀ n, n ≤ payload.length → limits.Holds n :=
    fun n hn => ⟨hn.trans hroom.1, hn.trans hroom.2⟩
  unfold offer
  rw [if_neg hne, if_neg (Nat.not_lt.2 hs.size), if_neg (by omega), if_neg (Nat.not_lt.2 hend)]
  unfold ofPieces
  split
  · next hnil =>
    subst hnil
    have hle : p.2.length ≤ payload.length := by omega
    rw [Option.elim_none, fresh, if_pos ⟨hslots, hholds _ hle⟩]
    rfl
  · rw [Option.elim_some, extend, if_neg (not_not.2 rfl), hfind]
    simp only
    rw [if_neg (by rw [hfree]; exact Bool.false_ne_true), if_neg (Nat.not_le.2 hlength),
      if_pos (show limits.Holds (bytes ⟨payload.length, pre⟩ + p.2.length) from hholds _ hsize),
      Pieces.place_after hbefore]

theorem settle_next (hs : Sendable limits c payload)
    (hcut : originals c payload = pre ++ p :: post) :
    settle hash (hash payload) ⟨payload.length, pre ++ [p]⟩ =
      if post = [] then (none, .ok (.complete payload))
      else (some ⟨payload.length, pre ++ [p]⟩, .ok .pending) := by
  have hsize := Pieces.size_cut hs.pos 0 payload
  have hspaced := Pieces.cut_spaced hs.pos 0 payload
  have hcut' : originals c payload = (pre ++ [p]) ++ post := by
    rw [hcut, List.append_assoc, List.singleton_append]
  rw [← originals, hcut', Nat.zero_add] at hspaced
  rw [← originals, hcut', Pieces.size_append] at hsize
  unfold settle
  by_cases hpost : post = []
  · rw [hpost, List.append_nil] at hcut' hspaced
    have hfull : bytes ⟨payload.length, pre ++ [p]⟩ = payload.length := by
      rw [hpost] at hsize
      exact hsize
    have hsub : ∀ q ∈ pre ++ [p], q ∈ Pieces.cut c 0 payload := by
      intro q hq
      rw [← originals, hcut']
      exact hq
    have hjoin : Pieces.join (pre ++ [p]) = payload :=
      Pieces.join_eq_of_size hs.pos hspaced hsub hfull
    rw [if_neg (not_not.2 hfull), if_pos hpost]
    simp only [hjoin, ne_eq, not_true_eq_false, if_false]
  · have hmore : 0 < Pieces.size post := by
      obtain ⟨q, post', rfl⟩ := List.exists_cons_of_ne_nil hpost
      have hq := hspaced.pos (List.mem_append_right _ List.mem_cons_self)
      simp only [Pieces.size, List.map_cons, List.sum_cons]
      omega
    have hpart : bytes ⟨payload.length, pre ++ [p]⟩ ≠ payload.length := by
      unfold bytes
      simp only
      omega
    rw [if_pos hpart, if_neg hpost]

theorem complete_room (hspaced : ∀ s, slot = some s → Pieces.Spaced 0 s.fragments s.totalLen)
    (h : (offer hash limits slot f).2 = .ok (.complete payload)) :
    limits.Holds f.totalLen ∧ (slot = none → 0 < limits.maxIncompleteTransfersPerPeer ∧
      f.bytes.length = f.totalLen) := by
  have ho := offer_offered hash limits slot f
  revert h
  generalize offer hash limits slot f = out at ho
  intro h
  cases ho with
  | kept ho => exact absurd h (ho payload)
  | @placed ps hslot hb hsize hend hfree hnew hroom =>
    have hps : Pieces.Spaced 0 ps f.totalLen := by
      rcases hslot with ⟨_, rfl⟩ | hs
      · exact Nat.zero_le _
      · exact hspaced _ hs
    have hne : ∀ p ∈ ps, p.1 ≠ f.offset := by
      intro p hp
      have hpos := hps.pos hp
      have hlen := List.length_pos_iff.2 hb
      have hd := hps.apart (Nat.lt_add_of_pos_right hlen) hfree p hp
      omega
    have hfull : Pieces.size ps + f.bytes.length = f.totalLen := by
      rw [← Pieces.size_place (b := f.bytes) hne]
      unfold settle at h
      split at h
      · cases h
      · next hbytes => exact not_not.1 hbytes
    refine ⟨hfull ▸ hroom, ?_⟩
    intro hnone
    refine ⟨hnew hnone, ?_⟩
    rcases hslot with ⟨_, rfl⟩ | hs
    · rw [← hfull]
      exact (Nat.zero_add _).symm
    · rw [hnone] at hs
      cases hs

end Slot

namespace Reassembler

variable {P : Type} [LinearOrder P] {hash : Bytes → TransferId} {r : Reassembler P} {peer : P}
  {c now : Nat} {payload : Bytes}

def outcomes (hash : Bytes → TransferId) (peer : P) (now : Nat) :
    Reassembler P → List Bytes → List (Except FrameError ReceiveOutcome)
  | _, [] => []
  | r, frame :: frames =>
    (r.accept hash peer frame now).2.outcome ::
      outcomes hash peer now (r.accept hash peer frame now).1 frames

theorem Handled.active {f : FragmentInput} (h : Handled hash r peer f now out)
    (hok : out.2.2 = .ok o) (ht : out.1.transfer peer f.id = some t) : t.lastActivity = now := by
  cases h with
  | refused _ _ => cases hok
  | duplicate _ _ =>
    rw [transfer_put, if_pos ⟨rfl, rfl⟩] at ht
    cases ht
    rfl
  | stored _ _ _ _ _ =>
    rw [transfer_store, if_pos ⟨rfl, rfl⟩] at ht
    split at ht
    · cases ht
    · cases ht
      rfl

structure Holding (hash : Bytes → TransferId) (peer : P) (payload : Bytes) (now : Nat)
    (pre : List (Nat × Bytes)) (r : Reassembler P) : Prop where
  accounted : r.Accounted
  slot : (r.transfer peer (hash payload)).map Transfer.slot = Slot.ofPieces payload.length pre
  active : ∀ t, r.transfer peer (hash payload) = some t → t.lastActivity = now

/-- Limits under which a message of this length can be held until it is complete. -/
structure Admits (limits : ReassemblyLimits) (n : Nat) : Prop where
  slots : 0 < limits.maxIncompleteTransfersPerPeer
  room : limits.Holds n
  ttl : 0 < limits.reassemblyTtl

theorem Holding.accept (h : Holding hash peer payload now pre r) (hs : Sendable r.limits c payload)
    (ha : Admits r.limits payload.length) (hcut : originals c payload = pre ++ p :: post) :
    let out := r.accept hash peer (originalFrame hash payload p) now
    out.2.outcome = (if post = [] then .ok (.complete payload) else .ok .pending) ∧
      (post ≠ [] → Holding hash peer payload now (pre ++ [p]) out.1) := by
  intro out
  have hp : p ∈ originals c payload := by
    rw [hcut]
    exact List.mem_append_right _ List.mem_cons_self
  have hf := @fragmentInput_originalFrame hash c payload p r.limits hs hp
  have halive : r.Alive peer (hash payload) now := by
    intro t ht
    rw [h.active t ht, Nat.sub_self]
    exact ha.ttl
  have hexpired := h.accounted.expire now
  have hanswer := acceptFragment_offer hash hexpired.balanced peer
    ⟨hash payload, payload.length, p.1, p.2⟩ now
  simp only at hanswer
  rw [transfer_expire_of_alive halive, h.slot, limits_expire,
    Slot.offer_next hs hcut ha.slots ha.room, Slot.settle_next hs hcut] at hanswer
  have hout : out.2.outcome = (if post = [] then .ok (.complete payload) else .ok .pending) := by
    rw [show out.2.outcome = _ from accept_outcome hf, congrArg Prod.snd hanswer]
    split <;> rfl
  refine ⟨hout, ?_⟩
  intro hpost
  have hstate : out.1 = ((r.expire now).1.acceptFragment hash peer
      ⟨hash payload, payload.length, p.1, p.2⟩ now).1 := by
    rw [show out.1 = _ from accept_state hash r peer _ now, hf, Option.elim_some]
  have hslot : (out.1.transfer peer (hash payload)).map Transfer.slot =
      some ⟨payload.length, pre ++ [p]⟩ := by
    rw [if_neg hpost, ← hstate] at hanswer
    exact congrArg Prod.fst hanswer
  refine ⟨h.accounted.accept peer _ now, ?_, ?_⟩
  · rw [hslot, Slot.ofPieces, if_neg (List.append_ne_nil_of_right_ne_nil _ (List.cons_ne_nil _ _))]
  · intro t ht
    have hhandled := acceptFragment_handled hash (r.expire now).1 peer
      ⟨hash payload, payload.length, p.1, p.2⟩ now
    rw [hstate] at ht
    refine hhandled.active (o := .pending) ?_ ht
    rw [congrArg Prod.snd hanswer, if_neg hpost]

/-- In order and all at once: every piece but the last one waits. -/
theorem Holding.outcomes (h : Holding hash peer payload now pre r)
    (hs : Sendable r.limits c payload) (ha : Admits r.limits payload.length)
    (hcut : originals c payload = pre ++ p :: post) :
    outcomes hash peer now r ((p :: post).map (originalFrame hash payload)) =
      List.replicate post.length (.ok .pending) ++ [.ok (.complete payload)] := by
  induction post generalizing r pre p with
  | nil =>
    obtain ⟨hout, _⟩ := h.accept hs ha hcut
    rw [if_pos rfl] at hout
    simp only [List.map_cons, List.map_nil, Reassembler.outcomes, hout, List.length_nil,
      List.replicate_zero, List.nil_append]
  | cons q post ih =>
    obtain ⟨hout, hnext⟩ := h.accept hs ha hcut
    rw [if_neg (List.cons_ne_nil q post)] at hout
    have hlimits := limits_accept hash r peer (originalFrame hash payload p) now
    have hcut' : originals c payload = (pre ++ [p]) ++ q :: post := by
      rw [hcut, List.append_assoc, List.singleton_append]
    have hrest := ih (hnext (List.cons_ne_nil q post)) (hlimits ▸ hs) (hlimits ▸ ha) hcut'
    rw [List.map_cons, Reassembler.outcomes, hout, hrest, List.length_cons, List.replicate_succ,
      List.cons_append]

theorem mem_outcomes (hr : r.Accounted) (ho : o ∈ outcomes hash peer now r frames) :
    ∃ s : Reassembler P, s.Accounted ∧ s.limits = r.limits ∧
      ∃ frame ∈ frames, o = (s.accept hash peer frame now).2.outcome := by
  induction frames generalizing r with
  | nil => cases ho
  | cons frame frames ih =>
    rw [outcomes] at ho
    rcases List.mem_cons.1 ho with ho | ho
    · exact ⟨r, hr, rfl, frame, List.mem_cons_self, ho⟩
    · obtain ⟨s, hs, hl, frame', hf, he⟩ := ih (hr.accept peer frame now) ho
      exact ⟨s, hs, hl.trans (limits_accept hash r peer frame now), frame',
        List.mem_cons_of_mem _ hf, he⟩

theorem admits_of_complete (hr : r.Accounted) (hs : Sendable r.limits c payload)
    (hlong : c < payload.length) (hq : q ∈ originals c payload)
    (h : (r.accept hash peer (originalFrame hash payload q) now).2.outcome =
      .ok (.complete payload')) : Admits r.limits payload.length := by
  have hf := @fragmentInput_originalFrame hash c payload q r.limits hs hq
  have hexpired := hr.expire now
  have hanswer := congrArg Prod.snd (acceptFragment_offer hash hexpired.balanced peer
    ⟨hash payload, payload.length, q.1, q.2⟩ now)
  rw [← accept_outcome hf, h] at hanswer
  have hspaced : ∀ s, ((r.expire now).1.transfer peer (hash payload)).map Transfer.slot = some s →
      Pieces.Spaced 0 s.fragments s.totalLen := by
    intro s hs
    obtain ⟨t, _, rfl⟩ := Option.map_eq_some_iff.1 hs
    exact t.spaced
  obtain ⟨hroom, hnew⟩ := Slot.complete_room hspaced hanswer.symm
  rw [limits_expire] at hroom hnew
  -- no piece is the whole message, so the transfer was there
  have hheld : (r.expire now).1.transfer peer (hash payload) ≠ none := by
    intro hnone
    have hwhole := (hnew (by rw [hnone, Option.map_none])).2
    have hle := Pieces.length_le_of_mem_cut hs.pos hq
    simp only at hwhole
    omega
  obtain ⟨t, ht⟩ := Option.ne_none_iff_exists'.1 hheld
  refine ⟨?_, hroom, ?_⟩
  · apply Nat.pos_of_ne_zero
    intro hzero
    have hcount := hexpired.bounded.transfers peer
    rw [limits_expire, hzero] at hcount
    rw [transfer_eq_none_of_count (Nat.le_zero.1 hcount)] at ht
    cases ht
  · rw [transfer_expire, Option.filter_eq_some_iff] at ht
    exact Nat.zero_lt_of_lt (of_decide_eq_true ht.2)

theorem lt_of_two_originals (hc : 0 < c) (h : 2 ≤ (originals c payload).length) :
    c < payload.length := by
  rw [originals, Pieces.length_cut] at h
  have hone := (Pieces.lt_chunkCount (i := 1) hc).1 h
  omega

/-- A policy, whether or not the validator accepts it, delivers a fragmented message that it lets
through exactly when the message fits the limits that the validator does not look at. -/
theorem framing_config_adequate_iff (hash : Bytes → TransferId) (config : FramingConfig)
    (overhead : Nat) (payload : Bytes) (frames : List Bytes) (peer : P) (now : Nat)
    (hsend : sendLogicalPayload hash config overhead payload = .ok frames)
    (hfrag : 2 ≤ frames.length) :
    .ok (.complete payload) ∈
        outcomes hash peer now (forIdentity config.reassemblyLimits : Reassembler P) frames ↔
      0 < config.maxIncompleteTransfersPerPeer ∧
        payload.length ≤ config.maxReassemblyBytesPerPeer ∧
        payload.length ≤ config.maxTotalReassemblyBytes ∧ 0 < config.reassemblyTtl := by
  obtain ⟨c, hs, _, hframes⟩ := sendLogicalPayload_fragments hsend hfrag
  have hlong : c < payload.length := by
    rw [hframes, List.length_map] at hfrag
    exact lt_of_two_originals hs.pos hfrag
  have hempty : (forIdentity config.reassemblyLimits : Reassembler P).Accounted :=
    accounted_forIdentity _
  constructor
  · intro ho
    obtain ⟨s, hacc, hl, frame, hframe, he⟩ := mem_outcomes hempty ho
    rw [hframes] at hframe
    obtain ⟨q, hq, rfl⟩ := List.mem_map.1 hframe
    have hs' : Sendable s.limits c payload := by
      rw [hl]
      exact hs
    obtain ⟨hslots, hroom, httl⟩ := admits_of_complete hacc hs' hlong hq he.symm
    rw [hl] at hslots hroom httl
    exact ⟨hslots, hroom.1, hroom.2, httl⟩
  · rintro ⟨hslots, hpeer, htotal, httl⟩
    obtain ⟨p, post, hcut⟩ : ∃ p post, originals c payload = p :: post := by
      cases ho : originals c payload with
      | nil =>
        rw [hframes, ho] at hfrag
        cases hfrag
      | cons p post => exact ⟨p, post, rfl⟩
    have hstart : Holding hash peer payload now []
        (forIdentity config.reassemblyLimits : Reassembler P) := ⟨hempty, rfl, nofun⟩
    rw [hframes, hcut, hstart.outcomes hs ⟨hslots, ⟨hpeer, htotal⟩, httl⟩ hcut]
    exact List.mem_append_right _ List.mem_cons_self

theorem framing_config_adequate_iff_default :
    let hash : Bytes → TransferId := fun _ => ⟨List.replicate 32 0, List.length_replicate⟩
    let config : FramingConfig := { datagramPayloadBudget := 82 }
    let payload : Bytes := List.replicate 82 7
    ∃ frames, sendLogicalPayload hash config 0 payload = .ok frames ∧
      .ok (.complete payload) ∈
        outcomes hash 0 5 (forIdentity config.reassemblyLimits : Reassembler Nat) frames := by
  intro hash config payload
  have hsend : sendLogicalPayload hash config 0 payload =
      .ok ((originals 41 payload).map (originalFrame hash payload)) := by decide
  exact ⟨_, hsend, (framing_config_adequate_iff hash config 0 payload _ 0 5 hsend (by decide)).2
    (by decide)⟩

/-- The validator accepts a policy whose receiver has room for 81 bytes of a peer, and the sender
sends a message of 82 bytes, which is allowed to have eight million. -/
theorem framing_config_inadequate :
    let hash : Bytes → TransferId := fun _ => ⟨List.replicate 32 0, List.length_replicate⟩
    let config : FramingConfig :=
      { datagramPayloadBudget := 82, maxReassemblyBytesPerPeer := 81 }
    let payload : Bytes := List.replicate 82 7
    config.validate 0 = .ok () ∧
      ∃ frames, sendLogicalPayload hash config 0 payload = .ok frames ∧ frames.length = 2 ∧
        outcomes hash 0 5 (forIdentity config.reassemblyLimits : Reassembler Nat) frames =
          [.ok .pending, .error .reassemblyCapacity] := by
  intro hash config payload
  have hsend : sendLogicalPayload hash config 0 payload =
      .ok ((originals 41 payload).map (originalFrame hash payload)) := by decide
  exact ⟨by decide, _, hsend, by decide, by decide +kernel⟩

end Reassembler

end Reconcile
