import Reconcile.FramedSend.Messages
import Reconcile.FramedSend.Mtu
import Reconcile.Lib.Packing

namespace Reconcile
open Lib Replay
set_option autoImplicit true

namespace RecoveryBook

variable {P : Type} [LinearOrder P] {b s s' : RecoveryBook P}

/-- Transfers may be gone, but none is new, and the known peers are the same. -/
structure Loses (b s : RecoveryBook P) : Prop where
  capabilities : s.capabilities = b.capabilities
  outbound : ∀ k, b.outbound.lookup k = none → s.outbound.lookup k = none

theorem Loses.refl (b : RecoveryBook P) : Loses b b := ⟨rfl, fun _ h => h⟩

theorem Loses.trans (h : Loses b s) (h' : Loses s s') : Loses b s' where
  capabilities := h'.capabilities.trans h.capabilities
  outbound k hk := h'.outbound k (h.outbound k hk)

theorem loses_remove (b : RecoveryBook P) (key : P × TransferId) : Loses b (b.remove key) := by
  unfold remove
  split
  · exact .refl b
  · refine ⟨rfl, ?_⟩
    intro k hk
    rw [HashMap.lookup_erase_eq, hk]
    exact ite_self _

theorem loses_expireOutbound (b : RecoveryBook P) (now ttl : Nat) :
    Loses b (b.expireOutbound now ttl).1 := by
  rw [expireOutbound]
  generalize b.expiredOutbound now ttl = keys
  induction keys generalizing b with
  | nil => exact .refl b
  | cons key keys ih => exact (loses_remove b key).trans (ih _)

theorem loses_makeRoom (b : RecoveryBook P) (peer : Option P) (full : RecoveryBook P → Bool)
    (evicted : Nat) : Loses b (b.makeRoom peer full evicted).1 :=
  evictWhile_invariant (fun _ s => Loses b s)
    (fun _ s key h _ => h.trans (loses_remove s key)) _ _ _ (.refl b)

structure LosesBut (key : P × TransferId) (b s : RecoveryBook P) : Prop where
  capabilities : s.capabilities = b.capabilities
  outbound : ∀ k, k ≠ key → b.outbound.lookup k = none → s.outbound.lookup k = none

theorem Loses.but (h : Loses b s) (key : P × TransferId) : LosesBut key b s :=
  ⟨h.capabilities, fun k _ hk => h.outbound k hk⟩

theorem Loses.insert (h : Loses b s) (key : P × TransferId) (t : OutboundTransfer) (total : Nat) :
    LosesBut key b { s with totalBytes := total, outbound := s.outbound.insert key t } := by
  refine ⟨h.capabilities, ?_⟩
  intro k hne hk
  rw [HashMap.lookup_insert_eq, if_neg hne]
  exact h.outbound k hk

theorem retain_spec (b : RecoveryBook P) (peer : P) (id : TransferId) (payload : Bytes) (now : Nat)
    (config : FramingConfig) :
    LosesBut (peer, id) b (b.retain peer id payload now config).1 ∧
      (b.outbound.lookup (peer, id) = none →
        (b.retain peer id payload now config).2.skipFullSend = false) := by
  have hexpired := loses_expireOutbound b now config.recoveryTtl
  unfold retain
  generalize b.expireOutbound now config.recoveryTtl = expiry at hexpired
  simp only [retainReport]
  split
  · exact ⟨hexpired.but _, fun _ => rfl⟩
  split
  · next t ht =>
    refine ⟨hexpired.insert _ _ _, ?_⟩
    intro hnone
    rw [hexpired.outbound _ hnone] at ht
    cases ht
  -- the result of each loop is named before the next one, so that no term repeats the loops
  have hfirst := hexpired.trans (loses_makeRoom expiry.1 (some peer)
    (fun b => config.maxOutboundRecoveryTransfersPerPeer ≤ b.peerTransferCount peer) 0)
  generalize makeRoom expiry.1 (some peer) _ 0 = s₁ at hfirst ⊢
  split
  · exact ⟨hfirst.but _, fun _ => rfl⟩
  have hsecond := hfirst.trans (loses_makeRoom s₁.1 none
    (fun b => config.maxTotalOutboundRecoveryTransfers ≤ b.outbound.len) s₁.2.1)
  generalize makeRoom s₁.1 none _ s₁.2.1 = s₂ at hsecond ⊢
  split
  · exact ⟨hsecond.but _, fun _ => rfl⟩
  have hthird := hsecond.trans (loses_makeRoom s₂.1 (some peer)
    (fun b => config.maxOutboundRecoveryBytesPerPeer < b.peerBytes peer + payload.length) s₂.2.1)
  generalize makeRoom s₂.1 (some peer) _ s₂.2.1 = s₃ at hthird ⊢
  split
  · exact ⟨hthird.but _, fun _ => rfl⟩
  have hfourth := hthird.trans (loses_makeRoom s₃.1 none
    (fun b => config.maxTotalOutboundRecoveryBytes < b.totalBytes + payload.length) s₃.2.1)
  generalize makeRoom s₃.1 none _ s₃.2.1 = s₄ at hfourth ⊢
  split
  · exact ⟨hfourth.but _, fun _ => rfl⟩
  · exact ⟨hfourth.insert _ _ _, fun _ => rfl⟩

/-- None of the transfers is kept for a peer that can ask for them, and no two are the same. -/
def Fresh (b : RecoveryBook P) (peer : P) (ids : List TransferId) : Prop :=
  b.capabilities.contains peer = true →
    ids.Nodup ∧ ∀ id ∈ ids, b.outbound.lookup (peer, id) = none

theorem supports_contains {peer : P} {config : FramingConfig}
    (h : (b.supports peer now config).1.capabilities.contains peer = true) :
    b.capabilities.contains peer = true := by
  unfold supports at h
  split at h
  · rw [HashMap.contains, expireCapabilities, HashMap.lookup_retain] at h
    rw [HashMap.contains]
    cases hb : b.capabilities.lookup peer with
    | none =>
      rw [hb] at h
      cases h
    | some seen => rfl
  · exact h

theorem supports_outbound (b : RecoveryBook P) (peer : P) (now : Nat) (config : FramingConfig) :
    (b.supports peer now config).1.outbound = b.outbound := by
  unfold supports
  split <;> rfl

theorem contains_of_supports (h : (b.supports peer now config).2 = true) :
    (b.supports peer now config).1.capabilities.contains peer = true := by
  unfold supports at h ⊢
  split at h
  · next hselective =>
    rw [if_pos hselective]
    exact h
  · cases h

theorem Fresh.tail {id : TransferId} (h : b.Fresh peer (id :: ids)) : b.Fresh peer ids := by
  intro hcontains
  obtain ⟨hnodup, hnone⟩ := h hcontains
  refine ⟨(List.nodup_cons.1 hnodup).2, ?_⟩
  intro i hi
  exact hnone i (List.mem_cons_of_mem _ hi)

theorem Fresh.supports (h : b.Fresh peer ids) (now : Nat) (config : FramingConfig) :
    (b.supports peer now config).1.Fresh peer ids := by
  intro hcontains
  rw [supports_outbound]
  exact h (supports_contains hcontains)

theorem Fresh.retain {id : TransferId} (h : b.Fresh peer (id :: ids)) (payload : Bytes) (now : Nat)
    (config : FramingConfig) : (b.retain peer id payload now config).1.Fresh peer ids := by
  obtain ⟨hbut, _⟩ := b.retain_spec peer id payload now config
  intro hcontains
  rw [hbut.capabilities] at hcontains
  obtain ⟨hnodup, hnone⟩ := h hcontains
  obtain ⟨hnotin, hrest⟩ := List.nodup_cons.1 hnodup
  refine ⟨hrest, ?_⟩
  intro i hi
  apply hbut.outbound
  · intro he
    cases he
    exact hnotin hi
  · exact hnone i (List.mem_cons_of_mem _ hi)

theorem Fresh.not_skipped {id : TransferId} (h : b.Fresh peer (id :: ids))
    (hcontains : b.capabilities.contains peer = true) (payload : Bytes) (now : Nat)
    (config : FramingConfig) : (b.retain peer id payload now config).2.skipFullSend = false := by
  obtain ⟨_, hskip⟩ := b.retain_spec peer id payload now config
  exact hskip ((h hcontains).2 id List.mem_cons_self)

end RecoveryBook

namespace SendPorts

variable {P : Type} [LinearOrder P] {ports : SendPorts} {b : RecoveryBook P} {peer : P}

def carries (ports : SendPorts) (completeCapacity fragmentCapacity : Nat) (payload : Bytes) : Bool :=
  payload.length ≤ ports.framing.maxLogicalMessageSize &&
    (payload.length ≤ completeCapacity ||
      Pieces.chunkCount fragmentCapacity payload ≤ ports.framing.maxFragmentsPerMessage)

def transferIds (ports : SendPorts) (completeCapacity fragmentCapacity : Nat)
    (payloads : List Bytes) : List TransferId :=
  (payloads.filter fun p => completeCapacity < p.length &&
    ports.carries completeCapacity fragmentCapacity p).map ports.hash

theorem transferIds_cons_skip
    (hskip : (decide (complete < payload.length) && ports.carries complete c payload) = false)
    (payloads : List Bytes) :
    ports.transferIds complete c (payload :: payloads) = ports.transferIds complete c payloads := by
  rw [transferIds, List.filter_cons_of_neg (by rw [hskip]; exact Bool.false_ne_true), transferIds]

theorem Capacious.writes_originals (h : ports.Capacious c)
    (hsize : payload.length ≤ ports.framing.maxLogicalMessageSize) (hpos : 0 < payload.length) :
    ∃ frames, writeFragments (ports.hash payload) payload.length (originals c payload) =
      .ok frames ∧ frames.isEmpty = false := by
  have hword : payload.length < 2 ^ 32 := hsize.trans_lt h.word
  refine ⟨_, writeFragments_ok hword ?_, ?_⟩
  · intro p hp
    have hend := ((Pieces.cut_spaced h.pos 0 payload).mem hp).2.2
    omega
  · have hchunk : 0 < Pieces.chunkCount c payload := by
      rw [Pieces.lt_chunkCount h.pos]
      omega
    rw [List.isEmpty_map, originals, List.isEmpty_eq_false_iff, ne_eq,
      ← List.length_eq_zero_iff, Pieces.length_cut]
    omega

/-- A payload within the limits has frames, unless it is kept for the peer; the payloads after it are
as fresh as they were. -/
theorem Capacious.sendLogicalPayload_carries (h : ports.Capacious c)
    (hcap : Reconcile.capacities ports.overhead ports.framing = some (complete, c))
    {payloads : List Bytes}
    (hfresh : b.Fresh peer (ports.transferIds complete c (payload :: payloads))) (now : Nat) :
    ∃ frames, (ports.sendLogicalPayload b peer payload now).2 = .ok frames ∧
      frames.isEmpty = !ports.carries complete c payload ∧
      (ports.sendLogicalPayload b peer payload now).1.Fresh peer
        (ports.transferIds complete c payloads) := by
  have hcomplete : complete ≤ ports.framing.maxLogicalMessageSize := by
    cases h.capacities.symm.trans hcap
    exact Nat.min_le_right _ _
  have hlater (hskip : (decide (complete < payload.length) && ports.carries complete c payload) =
      false) : b.Fresh peer (ports.transferIds complete c payloads) := by
    rwa [transferIds_cons_skip hskip] at hfresh
  unfold SendPorts.sendLogicalPayload
  simp only [hcap]
  split
  · next hsize =>
    have hno : ports.carries complete c payload = false := by
      rw [carries, decide_eq_false (Nat.not_le.2 hsize), Bool.false_and]
    exact ⟨[], rfl, by rw [hno]; rfl, hlater (by rw [hno, Bool.and_false])⟩
  next hsize =>
  rw [Nat.not_lt] at hsize
  split
  · next hle =>
    have hyes : ports.carries complete c payload = true := by
      rw [carries, decide_eq_true hsize, decide_eq_true hle, Bool.true_or, Bool.and_true]
    refine ⟨_, rfl, by rw [hyes]; rfl, hlater ?_⟩
    rw [decide_eq_false (Nat.not_lt.2 hle), Bool.false_and]
  next hlarge =>
  rw [Nat.not_le] at hlarge
  rw [if_neg h.pos.ne']
  split
  · next hcount =>
    have hno : ports.carries complete c payload = false := by
      rw [carries, decide_eq_false (Nat.not_le.2 hlarge), decide_eq_false (Nat.not_le.2 hcount),
        Bool.or_false, Bool.and_false]
    exact ⟨[], rfl, by rw [hno]; rfl, hlater (by rw [hno, Bool.and_false])⟩
  next hcount =>
  rw [Nat.not_lt] at hcount
  have hyes : ports.carries complete c payload = true := by
    rw [carries, decide_eq_true hsize, decide_eq_true hcount, Bool.or_true, Bool.and_true]
  obtain ⟨frames, hframes, hne⟩ := h.writes_originals hsize (by omega)
  rw [transferIds, List.filter_cons_of_pos (by rw [decide_eq_true hlarge, hyes]; rfl),
    List.map_cons, ← transferIds] at hfresh
  have hfragments (s : RecoveryBook P) (hs : s.Fresh peer (ports.transferIds complete c payloads)) :
      ∃ frames', writeFragments (ports.hash payload) payload.length (originals c payload) =
        .ok frames' ∧ frames'.isEmpty = !ports.carries complete c payload ∧
        s.Fresh peer (ports.transferIds complete c payloads) :=
    ⟨frames, hframes, by rw [hne, hyes]; rfl, hs⟩
  have hsupported := hfresh.supports now ports.framing
  split
  · next hcapable =>
    have hkept := hsupported.retain payload now ports.framing
    split
    · exact hfragments _ hkept
    split
    · next hskipped =>
      rw [hsupported.not_skipped (RecoveryBook.contains_of_supports hcapable)] at hskipped
      cases hskipped
    · exact hfragments _ hkept
  · exact hfragments _ hsupported.tail

section Loop

variable {M : Type} (codec : MessageCodec M)

def encodedSize (m : M) : Nat := (codec.encode m).length

theorem length_encodeAll (group : List M) :
    (codec.encodeAll group).length = Packing.total (encodedSize codec) group :=
  List.length_flatMap

theorem encodeAll_eq_nil (group : List M) : codec.encodeAll group = [] ↔ group = [] := by
  rw [MessageCodec.encodeAll, List.flatMap_eq_nil_iff]
  constructor
  · intro h
    cases group with
    | nil => rfl
    | cons m group => exact (codec.encode_ne m (h m List.mem_cons_self)).elim
  · rintro rfl m hm
    cases hm

theorem encodeAll_concat (group : List M) (m : M) :
    codec.encodeAll (group ++ [m]) = codec.encodeAll group ++ codec.encode m := by
  rw [MessageCodec.encodeAll, List.flatMap_append, List.flatMap_singleton, ← MessageCodec.encodeAll]

theorem encodeAll_flatten (groups : List (List M)) :
    codec.encodeAll groups.flatten = (groups.map codec.encodeAll).flatten := by
  induction groups with
  | nil => rfl
  | cons g groups ih =>
    rw [List.flatten_cons, List.map_cons, List.flatten_cons, ← ih]
    exact List.flatMap_append

/-- The loop over the buffer hands over the groups that the messages are packed into. -/
theorem pacedLoop_eq (send : σ → Bytes → Except ε σ) (messages group : List M) (s : σ) :
    pacedLoop capacity send (messages.map codec.encode) (codec.encodeAll group) s =
      (Packing.pack (encodedSize codec) capacity messages group).foldlM
        (fun s g => send s (codec.encodeAll g)) s := by
  have hflush (group : List M) (s : σ) : (Packing.flush group).foldlM
      (fun s g => send s (codec.encodeAll g)) s = sendBatch send s (codec.encodeAll group) := by
    unfold Packing.flush sendBatch
    by_cases hnil : group = []
    · rw [if_pos hnil, if_pos ((encodeAll_eq_nil codec group).2 hnil)]
      rfl
    · rw [if_neg hnil, if_neg (mt (encodeAll_eq_nil codec group).1 hnil), List.foldlM_cons]
      exact bind_pure _
  induction messages generalizing group s with
  | nil => exact (hflush group s).symm
  | cons m messages ih =>
    have hone : codec.encode m = codec.encodeAll [m] := (List.append_nil _).symm
    have hsize : (codec.encode m).length = encodedSize codec m := rfl
    rw [List.map_cons, pacedLoop, Packing.pack, List.length_append, length_encodeAll, hsize]
    split
    · rw [← encodeAll_concat, ih]
    · rw [List.foldlM_append, hflush]
      congr 1
      funext s
      split
      · rw [hone, ih]
      · rw [List.foldlM_cons, ← hone]
        congr 1
        funext s
        exact ih [] s

variable {codec}

theorem single_of_sound {group : List M}
    (h : Packing.Sound (encodedSize codec) complete group)
    (hlarge : complete < (codec.encodeAll group).length) : ∃ m, group = [m] := by
  rw [length_encodeAll] at hlarge
  exact List.length_eq_one_iff.1 (h.resolve_left (Nat.not_le.2 hlarge))

theorem encodedSize_le {group : List M} {m : M} (hm : m ∈ group) :
    (codec.encode m).length ≤ (codec.encodeAll group).length := by
  rw [MessageCodec.encodeAll, List.flatMap_def]
  exact (List.sublist_flatten_of_mem (List.mem_map.2 ⟨m, hm, rfl⟩)).length_le

theorem filter_large {groups : List (List M)} {large : Bytes → Bool}
    (h : ∀ g ∈ groups, Packing.Sound (encodedSize codec) complete g)
    (hlarge : ∀ p, large p = true → complete < p.length) :
    (groups.map codec.encodeAll).filter large = (groups.flatten.map codec.encode).filter large := by
  induction groups with
  | nil => rfl
  | cons g groups ih =>
    have hrest := ih fun g' hg' => h g' (List.mem_cons_of_mem g hg')
    rw [List.map_cons, List.flatten_cons, List.map_append, List.filter_append, ← hrest,
      List.filter_cons]
    split
    · next hg =>
      obtain ⟨m, rfl⟩ := single_of_sound (h g List.mem_cons_self) (hlarge _ hg)
      have hone : codec.encodeAll [m] = codec.encode m := List.append_nil _
      rw [hone] at hg ⊢
      rw [List.map_singleton, List.filter_singleton, hg]
      rfl
    · next hg =>
      suffices hnone : (g.map codec.encode).filter large = [] by rw [hnone, List.nil_append]
      rw [List.filter_eq_nil_iff]
      intro p hp hlp
      obtain ⟨m, hm, rfl⟩ := List.mem_map.1 hp
      have hlt := (hlarge _ hlp).trans_le (encodedSize_le hm)
      obtain ⟨m', rfl⟩ := single_of_sound (h g List.mem_cons_self) hlt
      rw [List.mem_singleton.1 hm] at hlp
      have hone : codec.encodeAll [m'] = codec.encode m' := List.append_nil _
      exact hg (hone ▸ hlp)

/-- Dropping the groups that are not carried drops the messages that are not. -/
theorem flatten_carried {groups : List (List M)}
    (hcomplete : complete ≤ ports.framing.maxLogicalMessageSize)
    (h : ∀ g ∈ groups, Packing.Sound (encodedSize codec) complete g) :
    (groups.filter fun g => ports.carries complete c (codec.encodeAll g)).flatten =
      groups.flatten.filter fun m => ports.carries complete c (codec.encode m) := by
  have hsmall {p : Bytes} (hp : p.length ≤ complete) : ports.carries complete c p = true := by
    rw [carries, decide_eq_true (hp.trans hcomplete), decide_eq_true hp, Bool.true_or,
      Bool.and_true]
  induction groups with
  | nil => rfl
  | cons g groups ih =>
    have hrest := ih fun g' hg' => h g' (List.mem_cons_of_mem g hg')
    rw [List.flatten_cons, List.filter_append, ← hrest, List.filter_cons]
    by_cases hg : (codec.encodeAll g).length ≤ complete
    · have hall : (g.filter fun m => ports.carries complete c (codec.encode m)) = g :=
        List.filter_eq_self.2 fun m hm => hsmall ((encodedSize_le hm).trans hg)
      rw [if_pos (hsmall hg), List.flatten_cons, hall]
    · obtain ⟨m, rfl⟩ := single_of_sound (h g List.mem_cons_self) (Nat.lt_of_not_le hg)
      have hone : codec.encodeAll [m] = codec.encode m := List.append_nil _
      rw [List.filter_singleton, hone]
      cases ports.carries complete c (codec.encode m) <;> rfl

end Loop

omit [LinearOrder P] in
theorem emitted_concat (sent : List (Bytes × List Bytes)) (s : RecoveryBook P) (payload : Bytes)
    (frames : List Bytes) :
    (PacedSend.mk s (sent ++ [(payload, frames)])).emitted =
      (PacedSend.mk b sent).emitted ++ if frames.isEmpty then [] else [payload] := by
  simp only [PacedSend.emitted, List.filter_append, List.map_append, List.filter_singleton]
  cases frames.isEmpty <;> rfl

theorem Capacious.handOver_all (h : ports.Capacious c)
    (hcap : Reconcile.capacities ports.overhead ports.framing = some (complete, c))
    (clock : Nat → Nat) (payloads : List Bytes) (s : PacedSend P)
    (hfresh : s.recovery.Fresh peer (ports.transferIds complete c payloads)) :
    ∃ s', payloads.foldlM (ports.handOver peer clock) s = .ok s' ∧
      s'.emitted = s.emitted ++ payloads.filter (ports.carries complete c) := by
  induction payloads generalizing s with
  | nil => exact ⟨s, rfl, (List.append_nil _).symm⟩
  | cons payload payloads ih =>
    obtain ⟨frames, hframes, hempty, hfresh'⟩ := h.sendLogicalPayload_carries hcap hfresh
      (clock s.sent.length)
    have hstep : ports.handOver peer clock s payload = .ok ⟨(ports.sendLogicalPayload s.recovery peer
        payload (clock s.sent.length)).1, s.sent ++ [(payload, frames)]⟩ := by
      rw [handOver, hframes]
      rfl
    obtain ⟨s', hs', hemitted⟩ := ih ⟨_, s.sent ++ [(payload, frames)]⟩ hfresh'
    refine ⟨s', ?_, ?_⟩
    · rw [List.foldlM_cons, hstep]
      exact hs'
    · rw [hemitted, emitted_concat, List.append_assoc, hempty, List.filter_cons]
      cases ports.carries complete c payload <;> rfl

/-- With a valid configuration, and no transfer that is kept for the peer or repeated in the list,
the payloads sent carry the advertised capability and the messages whole and in order, without those
that are over a limit by themselves. A payload too large for a complete frame is one message. -/
theorem packing_preserves_stream (ports : SendPorts) (codec : MessageCodec (Message K V S A))
    (b : RecoveryBook P) (peer : P) (clock : Nat → Nat) (messages : List (Message K V S A))
    (hvalid : ports.framing.validate ports.authenticator.overhead = .ok ())
    (hcap : Reconcile.capacities ports.overhead ports.framing = some (complete, fragment))
    (hfresh : b.Fresh peer (ports.transferIds complete fragment
      ((advertised ports.framing ++ messages).map codec.encode))) :
    ∃ (s : PacedSend P) (groups : List (List (Message K V S A))),
      ports.sendMessagesPaced codec b peer clock messages = .ok s ∧
      s.emitted = groups.map codec.encodeAll ∧
      groups.flatten = ((advertised ports.framing ++ messages).filter fun m =>
        ports.carries complete fragment (codec.encode m)) ∧
      s.emitted.flatten = codec.encodeAll ((advertised ports.framing ++ messages).filter fun m =>
        ports.carries complete fragment (codec.encode m)) ∧
      ∀ g ∈ groups, complete < (codec.encodeAll g).length → ∃ m, g = [m] := by
  have h := ports.capacious hvalid
  cases h.capacities.symm.trans hcap
  set complete := min (ports.framing.datagramPayloadBudget - (ports.overhead + completeHeaderLen))
    ports.framing.maxLogicalMessageSize
  set c := ports.framing.datagramPayloadBudget - (ports.overhead + fragmentHeaderLen)
  set packed := Packing.pack (encodedSize codec) complete messages (advertised ports.framing)
  have hsound : ∀ g ∈ packed, Packing.Sound (encodedSize codec) complete g := by
    apply Packing.sound_pack
    unfold advertised
    split
    · exact .inr rfl
    · exact .inl (Nat.zero_le _)
  have hflatten : packed.flatten = advertised ports.framing ++ messages := Packing.flatten_pack _ _
  have hids : ports.transferIds complete c (packed.map codec.encodeAll) =
      ports.transferIds complete c ((advertised ports.framing ++ messages).map codec.encode) := by
    rw [transferIds, transferIds, filter_large hsound, hflatten]
    intro p hp
    rw [Bool.and_eq_true, decide_eq_true_eq] at hp
    exact hp.1
  obtain ⟨s, hs, hemitted⟩ := h.handOver_all hcap clock (packed.map codec.encodeAll) ⟨b, []⟩
    (hids ▸ hfresh)
  have hgroups := flatten_carried (Nat.min_le_right _ _ : complete ≤ _) (c := c) hsound
  rw [hflatten] at hgroups
  refine ⟨s, packed.filter fun g => ports.carries complete c (codec.encodeAll g), ?_, ?_, hgroups,
    ?_, ?_⟩
  · rw [sendMessagesPaced, hcap]
    simp only
    rw [appendCapability_nil, pacedLoop_eq, ← hs, List.foldlM_map]
  · rw [hemitted]
    exact List.filter_map
  · rw [hemitted, ← hgroups, encodeAll_flatten]
    exact congrArg List.flatten List.filter_map
  · intro g hg hlarge
    exact single_of_sound (hsound g (List.mem_filter.1 hg).1) hlarge

def largeMessage : Message UInt8 Bytes Bytes UInt8 := .entryUpdate 1 (List.replicate 30 0)

def capableBook : RecoveryBook Nat :=
  RecoveryBook.forIdentity.recordCapability 1 0 smallest.framing 1

theorem packing_preserves_stream_large :
    ∃ (s : PacedSend Nat) (groups : List (List (Message UInt8 Bytes Bytes UInt8))),
      smallest.sendMessagesPaced byteCodec capableBook 1 (fun _ => 0)
        [.convergenceAck, largeMessage] = .ok s ∧
      s.emitted = groups.map byteCodec.encodeAll ∧
      groups.flatten = ((advertised smallest.framing ++ [Message.convergenceAck, largeMessage]).filter
        fun m => smallest.carries 41 1 (byteCodec.encode m)) ∧
      s.emitted.flatten = byteCodec.encodeAll ((advertised smallest.framing ++
        [Message.convergenceAck, largeMessage]).filter
        fun m => smallest.carries 41 1 (byteCodec.encode m)) ∧
      ∀ g ∈ groups, 41 < (byteCodec.encodeAll g).length → ∃ m, g = [m] := by
  apply packing_preserves_stream smallest byteCodec capableBook 1 (fun _ => 0)
    [.convergenceAck, largeMessage] (by decide) (by decide)
  intro _
  exact ⟨by decide +kernel, fun _ _ => rfl⟩

/-- The peer has nothing kept for it at the start; the second of two equal messages is deferred as a
duplicate of the first. -/
theorem packing_defers_repeated :
    smallest.framing.validate smallest.authenticator.overhead = .ok () ∧
      (∀ k, capableBook.outbound.lookup k = none) ∧
      smallest.carries 41 1 (byteCodec.encode largeMessage) = true ∧
      (smallest.sendMessagesPaced byteCodec capableBook 1 (fun _ => 0)
        [largeMessage, largeMessage]).map PacedSend.emitted =
        .ok [byteCodec.encode (.reserved6 selectiveRecoveryCapability),
          byteCodec.encode largeMessage] := by
  refine ⟨by decide, fun _ => rfl, by decide, ?_⟩
  decide +kernel

end SendPorts

end Reconcile
