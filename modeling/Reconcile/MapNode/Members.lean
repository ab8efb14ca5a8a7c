import Reconcile.MapNode.Sound

namespace Reconcile
open Lib Replay
set_option autoImplicit true

variable {K V P T A : Type} [LinearOrder K] [LinearOrder P] [LinearOrder T]

namespace MemberReplica

variable {r r' r'' : MemberReplica K V P T}

structure Forgets (r r' : MemberReplica K V P T) : Prop where
  members : ∀ q, q ∈ r'.members → q ∈ r.members
  acks : ∀ k q v, r'.acknowledgedVersion k q = some v → r.acknowledgedVersion k q = some v
  len : r'.members.len ≤ r.members.len

omit [LinearOrder T] in
theorem forgets_of_eq (hm : r'.members = r.members) (ha : r'.tombstoneAcks = r.tombstoneAcks) :
    r.Forgets r' where
  members q hq := hm ▸ hq
  acks k q v hv := by
    rw [acknowledgedVersion, ← ha]
    exact hv
  len := (congrArg HashMap.len hm).le

omit [LinearOrder T] in
theorem Forgets.trans (h : r.Forgets r') (h' : r'.Forgets r'') : r.Forgets r'' where
  members q hq := h.members q (h'.members q hq)
  acks k q v hv := h.acks k q v (h'.acks k q v hv)
  len := h'.len.trans h.len

omit [LinearOrder T] in
theorem forgets_forgetAck (r : MemberReplica K V P T) (peer : P) (key : K) :
    r.Forgets (forgetAck peer r key) := by
  unfold forgetAck
  split
  · exact forgets_of_eq rfl rfl
  next keyAcks hkey =>
  split
  · refine ⟨fun _ hq => hq, ?_, le_rfl⟩
    intro k q v hv
    simp only [acknowledgedVersion, HashMap.lookup_insert_eq] at hv ⊢
    split at hv
    · next hk =>
      rw [Option.bind_some, HashMap.lookup_erase_eq] at hv
      split at hv
      · cases hv
      · rw [hk, hkey]
        exact hv
    · exact hv
  · exact forgets_of_eq rfl rfl

omit [LinearOrder T] in
theorem forgets_decommissionPeer (r : MemberReplica K V P T) (peer : P) :
    r.Forgets (r.decommissionPeer peer) := by
  have hloop : ∀ (keys : List K) (r : MemberReplica K V P T),
      r.Forgets (keys.foldl (forgetAck peer) r) := by
    intro keys
    induction keys with
    | nil => exact fun _ => forgets_of_eq rfl rfl
    | cons key keys ih => exact fun r => (r.forgets_forgetAck peer key).trans (ih _)
  unfold decommissionPeer
  refine Forgets.trans ?_ (hloop _ _)
  split
  · exact ⟨fun q hq => (AList.mem_erase.1 hq).2, fun _ _ _ hv => hv, HashMap.len_erase_le _ _⟩
  · exact forgets_of_eq rfl rfl

omit [LinearOrder T] in
theorem members_recordTombstoneAcks (r : MemberReplica K V P T) (peer : P)
    (acks : List (K × Nat)) : (r.recordTombstoneAcks peer acks).members = r.members := by
  unfold recordTombstoneAcks
  induction acks generalizing r with
  | nil => rfl
  | cons ack acks ih =>
    rw [List.foldl_cons, ih]
    unfold recordAck
    split
    · simp only
      split <;> rfl
    · rfl

omit [LinearOrder T] in
theorem recordAck_acks (h : (r.recordAck peer key version).acknowledgedVersion k q = some v) :
    r.acknowledgedVersion k q = some v ∨ (q = peer ∧ k = key ∧ v = version) := by
  unfold recordAck at h
  split at h
  · simp only at h
    split at h
    · exact .inl h
    simp only [acknowledgedVersion, HashMap.lookup_insert_eq] at h ⊢
    split at h
    · next hk =>
      rw [Option.bind_some, HashMap.lookup_insert_eq] at h
      split at h
      · next hq =>
        cases h
        exact .inr ⟨hq, hk, rfl⟩
      · rw [hk]
        cases hacks : r.tombstoneAcks.lookup key with
        | none =>
          rw [hacks] at h
          cases h
        | some keyAcks =>
          rw [hacks] at h
          exact .inl h
    · exact .inl h
  · exact .inl h

omit [LinearOrder T] in
/-- Acknowledgements are recorded under the peer they came from. -/
theorem recordTombstoneAcks_acks {acks : List (K × Nat)}
    (h : (r.recordTombstoneAcks peer acks).acknowledgedVersion k q = some v) :
    r.acknowledgedVersion k q = some v ∨ (q = peer ∧ (k, v) ∈ acks) := by
  unfold recordTombstoneAcks at h
  induction acks generalizing r with
  | nil => exact .inl h
  | cons ack acks ih =>
    rcases ih h with h | ⟨hq, hin⟩
    · rcases recordAck_acks h with h | ⟨hq, hk, hv⟩
      · exact .inl h
      · exact .inr ⟨hq, by rw [hk, hv]; exact List.mem_cons_self⟩
    · exact .inr ⟨hq, List.mem_cons_of_mem ack hin⟩

omit [LinearOrder K] [LinearOrder T] in
theorem mem_members_join [DecidableEq K] (r : MemberReplica K V P T) (peer q : P)
    (h : q ∈ (r.join peer).members) : q ∈ r.members ∨ q = peer := by
  unfold join at h
  split at h
  · exact .inl h
  · exact ((AList.mem_insert _).1 h).symm

omit [LinearOrder K] [LinearOrder T] in
theorem len_join_le [DecidableEq K] (r : MemberReplica K V P T) (peer : P) :
    (r.join peer).members.len ≤
      if r.members.contains peer then r.members.len else r.members.len + 1 := by
  unfold join
  split
  · exact le_rfl
  · exact HashMap.len_insert_le _ _ _

omit [LinearOrder K] [LinearOrder T] in
theorem tombstoneAcks_join [DecidableEq K] (r : MemberReplica K V P T) (peer : P) :
    (r.join peer).tombstoneAcks = r.tombstoneAcks := by
  unfold join
  split <;> rfl

end MemberReplica

namespace MapNode

variable {proto : Protocol K V T A} {ports : SendPorts} {n n' : MapNode K V P T A}

theorem store_applyDatedUpdates (proto : Protocol K V T A) (n : MapNode K V P T A)
    (updates : List (K × Entry T V)) (peer : P) (moment : Moment) : ∃ replica,
      (n.applyDatedUpdates proto updates peer moment).store =
        { n.store with toReplica := replica } := by
  unfold MapNode.applyDatedUpdates
  split
  · exact ⟨n.store.toReplica, rfl⟩
  · simp only
    split <;> split <;> exact ⟨_, rfl⟩

theorem handleBatch_members (proto : Protocol K V T A) (ports : SendPorts)
    (n : MapNode K V P T A) (batch : DecodedDatagram K (Entry T V) A) (peer : P) (moment : Moment) :
    (n.handleBatch proto ports batch peer moment).store.members = n.store.members ∧
      (n.handleBatch proto ports batch peer moment).store.tombstoneAcks =
        (n.store.recordTombstoneAcks peer
          (batch.tombstoneAcks.map fun a : K × Fin (2 ^ 64) => (a.1, a.2.val))).tombstoneAcks := by
  unfold MapNode.handleBatch
  rw [store_handleValueComparison]
  have hsame : (if batch.selectiveRecoveryCapability then n.recordCapability ports peer moment.now
      else n).store = n.store := by
    split <;> rfl
  generalize (if batch.selectiveRecoveryCapability then n.recordCapability ports peer moment.now
    else n) = n₁ at hsame ⊢
  obtain ⟨replica, hstore⟩ := store_applyDatedUpdates proto
    (MapNode.handleDatedComparison proto { n₁ with
      store := n₁.store.recordTombstoneAcks peer
        (batch.tombstoneAcks.map fun a : K × Fin (2 ^ 64) => (a.1, a.2.val)) }
      batch.datedRanges peer moment.datedDraw) batch.datedUpdates peer moment
  rw [hstore, store_handleDatedComparison]
  simp only [hsame, MemberReplica.members_recordTombstoneAcks, and_self]

structure Learns (proto : Protocol K V T A) (n n' : MapNode K V P T A) (payload : Bytes)
    (sender : P) : Prop where
  members : ∀ q, q ∈ n'.store.members → q ∈ n.store.members ∨
    (q = sender ∧ ∃ batch, decodeDatagram proto.codec payload = some batch ∧
      batch.spokeDated = true)
  acks : ∀ k q v, n'.store.acknowledgedVersion k q = some v →
    n.store.acknowledgedVersion k q = some v ∨
      (q = sender ∧ ∃ batch version, decodeDatagram proto.codec payload = some batch ∧
        (k, version) ∈ batch.tombstoneAcks ∧ version.val = v)
  len : n'.store.members.len ≤
    if n.store.members.contains sender then n.store.members.len else n.store.members.len + 1

theorem complete_learns (proto : Protocol K V T A) (ports : SendPorts) (n : MapNode K V P T A)
    (payload : Bytes) (sender : P) (moment : Moment) :
    Learns proto n (n.complete proto ports payload sender moment) payload sender := by
  unfold MapNode.complete MapNode.handleMessages
  have hlen : n.store.members.len ≤
      if n.store.members.contains sender then n.store.members.len
      else n.store.members.len + 1 := by
    split
    · exact le_rfl
    · exact Nat.le_succ _
  simp only
  cases hd : decodeDatagram proto.codec payload with
  | none => exact ⟨fun _ hq => .inl hq, fun _ _ _ hv => .inl hv, hlen⟩
  | some batch =>
    obtain ⟨hmembers, hacks⟩ := handleBatch_members proto ports
      { n with pendingRepairs := n.pendingRepairs.erase sender } batch sender moment
    simp only
    generalize MapNode.handleBatch proto ports
      { n with pendingRepairs := n.pendingRepairs.erase sender } batch sender moment = handled
      at hmembers hacks ⊢
    have hrecorded : ∀ k q v, handled.store.acknowledgedVersion k q = some v →
        n.store.acknowledgedVersion k q = some v ∨
          (q = sender ∧ ∃ batch' version, some batch = some batch' ∧
            (k, version) ∈ batch'.tombstoneAcks ∧ version.val = v) := by
      intro k q v hv
      rw [MemberReplica.acknowledgedVersion, hacks] at hv
      rcases MemberReplica.recordTombstoneAcks_acks hv with hv | ⟨hq, hin⟩
      · exact .inl hv
      · obtain ⟨⟨k', version⟩, hmem, he⟩ := List.mem_map.1 hin
        cases he
        exact .inr ⟨hq, batch, version, rfl, hmem, rfl⟩
    split
    · next hspoke =>
      refine ⟨?_, ?_, ?_⟩
      · intro q hq
        rcases MemberReplica.mem_members_join _ _ _ hq with hq | hq
        · exact .inl (hmembers ▸ hq)
        · exact .inr ⟨hq, batch, hd, hspoke⟩
      · intro k q v hv
        rw [MemberReplica.acknowledgedVersion] at hv
        simp only [MemberReplica.tombstoneAcks_join] at hv
        rw [hd]
        exact hrecorded k q v hv
      · have hjoin := MemberReplica.len_join_le handled.store sender
        rw [hmembers] at hjoin
        exact hjoin
    · refine ⟨fun q hq => .inl (hmembers ▸ hq), ?_, ?_⟩
      · rw [hd]
        exact hrecorded
      · rw [hmembers]
        exact hlen

omit [LinearOrder K] [LinearOrder P] [LinearOrder T] in
theorem store_broadcast (n : MapNode K V P T A) (claimed : Bool) (now : Nat)
    (keyValues : List (K × Entry T V)) : (n.broadcast claimed now keyValues).store = n.store := by
  unfold MapNode.broadcast
  split <;> rfl

omit [LinearOrder K] [LinearOrder P] [LinearOrder T] in
theorem store_broadcasts (n : MapNode K V P T A) (claimed : Bool) (now : Nat)
    (batches : List (List (K × Entry T V))) :
    (batches.foldl (MapNode.broadcast · claimed now) n).store = n.store := by
  induction batches generalizing n with
  | nil => rfl
  | cons batch batches ih => rw [List.foldl_cons, ih, store_broadcast]

/-- What a step does to the members and acknowledgements: it completes no payload and at most
forgets, or a datagram the gate let in completes one. -/
inductive StoreStep (proto : Protocol K V T A) (ports : SendPorts) (n n' : MapNode K V P T A) :
    MapEvent K V P T → NodeOutput K V T → Prop where
  | forgets (h : n.store.Forgets n'.store) (hout : out.completed = []) :
    StoreStep proto ports n n' event out
  | completed (hadmitted : (n.admitted ports sender bytes moment).2 = .ok payload)
    (hout : out.completed = [logical]) (hcompletes : ports.Completes n.endpoint bytes logical)
    (hlearns : Learns proto n n' logical sender) :
    StoreStep proto ports n n' (.datagram sender bytes moment) out

theorem step_store (hs : n.step proto ports event = some (n', out)) :
    StoreStep proto ports n n' event out := by
  cases event with
  | datagram sender bytes moment =>
    have hr := receives proto ports n sender bytes moment
    rw [Option.some.inj hs] at hr
    cases hr with
    | dropped => exact .forgets (MemberReplica.forgets_of_eq rfl rfl) rfl
    | pending => exact .forgets (MemberReplica.forgets_of_eq rfl rfl) rfl
    | @completed payload filter logical hadmitted hreplay hlogical =>
      have hlearns := complete_learns proto ports (n.framed ports filter sender payload.bytes
        moment).1 logical sender moment
      obtain ⟨opened, hopen, hversion, _⟩ := admitInbound_ok hadmitted
      exact .completed hadmitted rfl
        ⟨opened, payload, sender, moment.now, hopen, hversion, hlogical⟩
        ⟨hlearns.members, hlearns.acks, hlearns.len⟩
  | send i clock moment =>
    obtain ⟨task, _, hs⟩ := Option.bind_eq_some_iff.1 hs
    cases hout : ports.handOut proto.codec n.endpoint.recovery task.peer clock task.outgoing with
    | error e =>
      simp only [MapNode.runTask, hout] at hs
      cases hs
    | ok handed =>
      simp only [MapNode.runTask, hout] at hs
      cases hs
      exact .forgets (MemberReplica.forgets_of_eq rfl rfl) rfl
  | call call stamps =>
    obtain ⟨coalescer, _, hs⟩ := Option.bind_eq_some_iff.1 hs
    cases hs
    exact .forgets (MemberReplica.forgets_of_eq rfl rfl) rfl
  | tryCall call stamps claimed now =>
    rw [MapNode.step] at hs
    split at hs
    · cases hs
      refine .forgets ?_ rfl
      split <;> exact MemberReplica.forgets_of_eq rfl rfl
    · cases hs
      exact .forgets (MemberReplica.forgets_of_eq rfl rfl) rfl
  | coalesce event claimed now =>
    rw [MapNode.step] at hs
    split at hs
    · cases hs
    · obtain ⟨m, hm, he⟩ := Option.map_eq_some_iff.1 hs
      cases he
      obtain ⟨coalescer, _, hm⟩ := Option.bind_eq_some_iff.1 hm
      cases hm
      refine .forgets ?_ rfl
      rw [store_broadcasts]
      exact MemberReplica.forgets_of_eq rfl rfl
  | dump peer event =>
    rw [MapNode.step] at hs
    split at hs
    · cases hs
    · obtain ⟨m, hm, he⟩ := Option.map_eq_some_iff.1 hs
      cases he
      obtain ⟨state, _, hm⟩ := Option.bind_eq_some_iff.1 hm
      cases hm
      exact .forgets (MemberReplica.forgets_of_eq rfl rfl) rfl
  | round targets now =>
    cases hs
    exact .forgets (MemberReplica.forgets_of_eq rfl rfl) rfl
  | repair now interval =>
    cases hs
    exact .forgets (MemberReplica.forgets_of_eq rfl rfl) rfl
  | retryIncomplete now =>
    cases hs
    exact .forgets (MemberReplica.forgets_of_eq rfl rfl) rfl
  | expire now =>
    cases hs
    exact .forgets (MemberReplica.forgets_of_eq rfl rfl) rfl
  | seed peer now =>
    cases hs
    exact .forgets (MemberReplica.forgets_of_eq rfl rfl) rfl
  | decommission peer =>
    cases hs
    exact .forgets (MemberReplica.forgets_decommissionPeer n.store peer) rfl

/-- The gate lets in a sender that is no member only below the cap, and one payload adds one. -/
theorem step_members_le (hs : n.step proto ports event = some (n', out))
    (h : n.store.members.len ≤ ports.maxPeers) : n'.store.members.len ≤ ports.maxPeers := by
  cases step_store hs with
  | forgets hforgets hout => exact hforgets.len.trans h
  | completed hadmitted hout hcompletes hlearns =>
    obtain ⟨opened, _, _, hcap, _⟩ := admitInbound_ok hadmitted
    refine hlearns.len.trans ?_
    split
    · exact h
    · next hunknown =>
      simp only [PeerCap.admits, hunknown, Bool.false_or, decide_eq_true_eq] at hcap
      exact hcap

end MapNode

end Reconcile
