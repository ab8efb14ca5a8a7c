import Reconcile.Framing.RecoveryBook
import Reconcile.Lib.Transition

namespace Reconcile
open Lib
set_option autoImplicit true

namespace RecoveryBook

variable {P : Type} [LinearOrder P]

/-- The book after some transfers were removed; what is known of the peers may have changed. -/
inductive Pruned (b : RecoveryBook P) : RecoveryBook P → Prop where
  | refl : Pruned b b
  | remove (key : P × TransferId) (h : Pruned b b') : Pruned b (b'.remove key)
  | learn (capabilities : HashMap P Nat) (h : Pruned b b') :
    Pruned b { b' with capabilities := capabilities }

def ofPeer (peer : P) (f : OutboundTransfer → Nat) (key : P × TransferId) (t : OutboundTransfer) :
    Nat := if key.1 = peer then f t else 0

theorem peerTransferCount_eq (b : RecoveryBook P) (peer : P) :
    b.peerTransferCount peer = b.outbound.weigh (ofPeer peer fun _ => 1) := by
  rw [peerTransferCount, HashMap.weigh]
  induction b.outbound.toList with
  | nil => rfl
  | cons t l ih =>
    rw [List.countP_cons, List.map_cons, List.sum_cons, ih, ofPeer, Nat.add_comm]
    simp only [decide_eq_true_eq]

theorem peerBytes_eq (b : RecoveryBook P) (peer : P) :
    b.peerBytes peer = b.outbound.weigh (ofPeer peer fun t => t.payload.length) := by
  rw [peerBytes, HashMap.weigh]
  induction b.outbound.toList with
  | nil => rfl
  | cons t l ih =>
    rw [List.map_cons, List.sum_cons, ← ih, ofPeer, List.filter_cons]
    split
    · next hp => rw [if_pos (of_decide_eq_true hp), List.map_cons, List.sum_cons]
    · next hp => rw [if_neg fun h => hp (decide_eq_true h), Nat.zero_add]

/-- The counter is the bytes of the kept payloads, every limit holds, and no transfer was served more
often than it may be. -/
structure Accounted (config : FramingConfig) (b : RecoveryBook P) : Prop where
  total : b.totalBytes = b.outbound.tally fun t => t.payload.length
  transfers : b.outbound.len ≤ config.maxTotalOutboundRecoveryTransfers
  bytes : b.totalBytes ≤ config.maxTotalOutboundRecoveryBytes
  peerTransfers : ∀ peer, b.peerTransferCount peer ≤ config.maxOutboundRecoveryTransfersPerPeer
  peerBytes : ∀ peer, b.peerBytes peer ≤ config.maxOutboundRecoveryBytesPerPeer
  rounds : ∀ key t, b.outbound.lookup key = some t →
    t.recoveryRounds ≤ config.maxSelectiveRecoveryRounds

theorem outbound_remove (b : RecoveryBook P) (key : P × TransferId) :
    (b.remove key).outbound = b.outbound.erase key := by
  unfold remove
  split
  · next hnone =>
    apply AList.ext
    exact (List.kerase_of_notMem_keys (AList.lookup_eq_none.1 hnone)).symm
  · rfl

theorem weigh_remove_le (f : P × TransferId → OutboundTransfer → Nat) (b : RecoveryBook P)
    (key : P × TransferId) : (b.remove key).outbound.weigh f ≤ b.outbound.weigh f := by
  rw [outbound_remove]
  exact HashMap.weigh_erase_le f b.outbound key

theorem totalBytes_remove_le (b : RecoveryBook P) (key : P × TransferId) :
    (b.remove key).totalBytes ≤ b.totalBytes := by
  unfold remove
  split
  · exact Nat.le_refl _
  · exact Nat.sub_le ..

theorem lookup_remove (b : RecoveryBook P) (key k : P × TransferId) :
    (b.remove key).outbound.lookup k = if k = key then none else b.outbound.lookup k := by
  rw [outbound_remove, HashMap.lookup_erase_eq]

omit [LinearOrder P] in
theorem len_eq_weigh (b : RecoveryBook P) : b.outbound.len = b.outbound.weigh fun _ _ => 1 :=
  b.outbound.len_eq_tally

theorem Pruned.weigh_le {b b' : RecoveryBook P} (h : Pruned b b')
    (f : P × TransferId → OutboundTransfer → Nat) : b'.outbound.weigh f ≤ b.outbound.weigh f := by
  induction h with
  | refl => exact Nat.le_refl _
  | remove key _ ih => exact (weigh_remove_le f _ key).trans ih
  | learn _ _ ih => exact ih

theorem Pruned.totalBytes_le {b b' : RecoveryBook P} (h : Pruned b b') :
    b'.totalBytes ≤ b.totalBytes := by
  induction h with
  | refl => exact Nat.le_refl _
  | remove key _ ih => exact (totalBytes_remove_le _ key).trans ih
  | learn _ _ ih => exact ih

theorem Pruned.lookup {b b' : RecoveryBook P} (h : Pruned b b')
    (hk : b'.outbound.lookup k = some t) : b.outbound.lookup k = some t := by
  induction h with
  | refl => exact hk
  | remove key _ ih =>
    rw [lookup_remove] at hk
    split at hk
    · cases hk
    · exact ih hk
  | learn _ _ ih => exact ih hk

theorem Pruned.lookup_eq_none {b b' : RecoveryBook P} (h : Pruned b b')
    (hk : b.outbound.lookup k = none) : b'.outbound.lookup k = none := by
  cases hk' : b'.outbound.lookup k with
  | none => rfl
  | some t => rw [← hk, h.lookup hk']

theorem Pruned.total {b b' : RecoveryBook P} (h : Pruned b b')
    (htotal : b.totalBytes = b.outbound.tally fun t => t.payload.length) :
    b'.totalBytes = b'.outbound.tally fun t => t.payload.length := by
  induction h with
  | refl => exact htotal
  | @remove b' key _ ih =>
    unfold RecoveryBook.remove
    split
    · exact ih
    · next t ht =>
      have hsplit := b'.outbound.tally_eq_erase (fun t => t.payload.length) key
      rw [ht, Option.elim_some] at hsplit
      simp only
      omega
  | learn _ _ ih => exact ih

theorem Accounted.pruned {config : FramingConfig} {b b' : RecoveryBook P} (h : b.Accounted config)
    (hp : Pruned b b') : b'.Accounted config where
  total := hp.total h.total
  transfers := by
    rw [len_eq_weigh]
    exact (hp.weigh_le _).trans (b.len_eq_weigh ▸ h.transfers)
  bytes := hp.totalBytes_le.trans h.bytes
  peerTransfers peer := by
    rw [peerTransferCount_eq]
    exact (hp.weigh_le _).trans (b.peerTransferCount_eq peer ▸ h.peerTransfers peer)
  peerBytes peer := by
    rw [peerBytes_eq]
    exact (hp.weigh_le _).trans (b.peerBytes_eq peer ▸ h.peerBytes peer)
  rounds key t ht := h.rounds key t (hp.lookup ht)

theorem Pruned.trans {b b' b'' : RecoveryBook P} (h : Pruned b b') (h' : Pruned b' b'') :
    Pruned b b'' := by
  induction h' with
  | refl => exact h
  | remove key _ ih => exact ih.remove key
  | learn capabilities _ ih => exact ih.learn capabilities

theorem pruned_expireOutbound (b : RecoveryBook P) (now ttl : Nat) :
    Pruned b (b.expireOutbound now ttl).1 := by
  have hloop : ∀ (keys : List (P × TransferId)) (b' : RecoveryBook P), Pruned b b' →
      Pruned b (keys.foldl remove b') := by
    intro keys
    induction keys with
    | nil => exact fun _ h => h
    | cons key keys ih => exact fun b' h => ih _ (h.remove key)
  exact hloop _ b .refl

theorem makeRoom_spec (b : RecoveryBook P) (peer : Option P) (full : RecoveryBook P → Bool)
    (evicted : Nat) :
    Pruned b (b.makeRoom peer full evicted).1 ∧
      ((b.makeRoom peer full evicted).2.2 = true → full (b.makeRoom peer full evicted).1 = false) :=
  ⟨evictWhile_invariant (fun _ => Pruned b) (fun _ _ key h _ => h.remove key) _ _ _ .refl,
    evictWhile_room⟩

structure Room (config : FramingConfig) (peer : P) (payload : Bytes) (b : RecoveryBook P) :
    Prop where
  peerTransfers : b.peerTransferCount peer < config.maxOutboundRecoveryTransfersPerPeer
  transfers : b.outbound.len < config.maxTotalOutboundRecoveryTransfers
  peerBytes : b.peerBytes peer + payload.length ≤ config.maxOutboundRecoveryBytesPerPeer
  bytes : b.totalBytes + payload.length ≤ config.maxTotalOutboundRecoveryBytes

def newlyKept (report : RetainReport) : Bool :=
  report.retained && !report.skipFullSend && !report.fallbackFullRetry

/-- A call of `retain` keeps nothing new, goes on keeping the transfer, or takes it in. -/
inductive RetainEffect (config : FramingConfig) (b : RecoveryBook P) (peer : P) (id : TransferId)
    (payload : Bytes) (now : Nat) : RecoveryBook P × RetainReport → Prop where
  | refused (hp : Pruned b b') (hr : newlyKept report = false) :
    RetainEffect config b peer id payload now (b', report)
  | known (hp : Pruned b b') (ht : b'.outbound.lookup (peer, id) = some t)
    (hpayload : t'.payload = t.payload) (hrounds : t'.recoveryRounds = t.recoveryRounds)
    (hr : newlyKept report = false) :
    RetainEffect config b peer id payload now
      ({ b' with outbound := b'.outbound.insert (peer, id) t' }, report)
  | added (hp : Pruned b b') (hnone : b'.outbound.lookup (peer, id) = none)
    (hroom : b'.Room config peer payload) (hr : newlyKept report = true) :
    RetainEffect config b peer id payload now
      ({ b' with
        totalBytes := b'.totalBytes + payload.length
        outbound := b'.outbound.insert (peer, id) ⟨payload, now, now, 0⟩ }, report)

theorem retain_effect (b : RecoveryBook P) (peer : P) (id : TransferId) (payload : Bytes)
    (now : Nat) (config : FramingConfig) :
    RetainEffect config b peer id payload now (b.retain peer id payload now config) := by
  have hexpire := b.pruned_expireOutbound now config.recoveryTtl
  unfold retain
  generalize b.expireOutbound now config.recoveryTtl = expiry at hexpire
  simp only
  split
  · exact .refused hexpire rfl
  split
  · next t ht =>
    refine .known hexpire ht rfl rfl ?_
    cases decide (fullRetryInterval ≤ now - t.lastFullSend) <;> rfl
  next hnone =>
  -- each loop leaves room under its own limit, and the later ones only remove
  obtain ⟨h₁, hroom₁⟩ := makeRoom_spec expiry.1 (some peer)
    (fun b => config.maxOutboundRecoveryTransfersPerPeer ≤ b.peerTransferCount peer) 0
  generalize makeRoom expiry.1 (some peer) _ 0 = s₁ at h₁ hroom₁ ⊢
  split
  · exact .refused (hexpire.trans h₁) rfl
  next hok₁ =>
  obtain ⟨h₂, hroom₂⟩ := makeRoom_spec s₁.1 none
    (fun b => config.maxTotalOutboundRecoveryTransfers ≤ b.outbound.len) s₁.2.1
  generalize makeRoom s₁.1 none _ s₁.2.1 = s₂ at h₂ hroom₂ ⊢
  split
  · exact .refused (hexpire.trans (h₁.trans h₂)) rfl
  next hok₂ =>
  obtain ⟨h₃, hroom₃⟩ := makeRoom_spec s₂.1 (some peer)
    (fun b => config.maxOutboundRecoveryBytesPerPeer < b.peerBytes peer + payload.length) s₂.2.1
  generalize makeRoom s₂.1 (some peer) _ s₂.2.1 = s₃ at h₃ hroom₃ ⊢
  split
  · exact .refused (hexpire.trans (h₁.trans (h₂.trans h₃))) rfl
  next hok₃ =>
  obtain ⟨h₄, hroom₄⟩ := makeRoom_spec s₃.1 none
    (fun b => config.maxTotalOutboundRecoveryBytes < b.totalBytes + payload.length) s₃.2.1
  generalize makeRoom s₃.1 none _ s₃.2.1 = s₄ at h₄ hroom₄ ⊢
  split
  · exact .refused (hexpire.trans (h₁.trans (h₂.trans (h₃.trans h₄)))) rfl
  next hok₄ =>
  have hpruned := h₁.trans (h₂.trans (h₃.trans h₄))
  refine .added (hexpire.trans hpruned) (hpruned.lookup_eq_none hnone) ⟨?_, ?_, ?_, ?_⟩ rfl
  · have hlt := hroom₁ (by simpa using hok₁)
    rw [decide_eq_false_iff_not, Nat.not_le, peerTransferCount_eq] at hlt
    rw [peerTransferCount_eq]
    exact Nat.lt_of_le_of_lt ((h₂.trans (h₃.trans h₄)).weigh_le _) hlt
  · have hlt := hroom₂ (by simpa using hok₂)
    rw [decide_eq_false_iff_not, Nat.not_le, len_eq_weigh] at hlt
    rw [len_eq_weigh]
    exact Nat.lt_of_le_of_lt ((h₃.trans h₄).weigh_le _) hlt
  · have hle := hroom₃ (by simpa using hok₃)
    rw [decide_eq_false_iff_not, Nat.not_lt, peerBytes_eq] at hle
    rw [peerBytes_eq]
    exact (Nat.add_le_add_right (h₄.weigh_le _) _).trans hle
  · have hle := hroom₄ (by simpa using hok₄)
    rwa [decide_eq_false_iff_not, Nat.not_lt] at hle

theorem payloadForReport_cases (b : RecoveryBook P) (peer : P) (id : TransferId) (now : Nat)
    (config : FramingConfig) :
    (Pruned b (b.payloadForReport peer id now config).1 ∧
      (b.payloadForReport peer id now config).2 = none) ∨
    ∃ b' t t', Pruned b b' ∧ b'.outbound.lookup (peer, id) = some t ∧ t'.payload = t.payload ∧
      t.recoveryRounds < config.maxSelectiveRecoveryRounds ∧
      t'.recoveryRounds = t.recoveryRounds + 1 ∧
      (b.payloadForReport peer id now config).1 =
        { b' with outbound := b'.outbound.insert (peer, id) t' } ∧
      ∃ served, (b.payloadForReport peer id now config).2 = some served := by
  have hexpire := b.pruned_expireOutbound now config.recoveryTtl
  unfold payloadForReport
  generalize (b.expireOutbound now config.recoveryTtl).1 = b' at hexpire
  simp only
  split
  · exact .inl ⟨hexpire, rfl⟩
  next t ht =>
  split
  · exact .inl ⟨hexpire, rfl⟩
  next hrounds =>
  refine .inr ⟨b', t,
    { t with lastActivity := now, recoveryRounds := t.recoveryRounds + 1 }, hexpire, ht, rfl,
    Nat.lt_of_not_le hrounds, rfl, rfl, _, rfl⟩

theorem Accounted.replace {config : FramingConfig} {b : RecoveryBook P} (h : b.Accounted config)
    (ht : b.outbound.lookup key = some t) (hpayload : t'.payload = t.payload)
    (hrounds : t'.recoveryRounds ≤ config.maxSelectiveRecoveryRounds) :
    Accounted config { b with outbound := b.outbound.insert key t' } := by
  have hweigh : ∀ f : P × TransferId → OutboundTransfer → Nat, f key t' = f key t →
      HashMap.weigh f (b.outbound.insert key t') = b.outbound.weigh f :=
    fun f => HashMap.weigh_insert_of_some ht
  refine ⟨?_, ?_, h.bytes, ?_, ?_, ?_⟩
  · exact h.total.trans (hweigh (fun _ t => t.payload.length) (by simp only [hpayload])).symm
  · have hlen := hweigh (fun _ _ => 1) rfl
    rw [len_eq_weigh, hlen, ← len_eq_weigh]
    exact h.transfers
  · intro peer
    rw [peerTransferCount_eq, hweigh _ rfl, ← peerTransferCount_eq]
    exact h.peerTransfers peer
  · intro peer
    rw [peerBytes_eq, hweigh _ (by simp only [ofPeer, hpayload]), ← peerBytes_eq]
    exact h.peerBytes peer
  · intro k u hu
    simp only [HashMap.lookup_insert_eq] at hu
    split at hu
    · cases hu
      exact hrounds
    · exact h.rounds k u hu

theorem Accounted.add {config : FramingConfig} {b : RecoveryBook P} {peer : P} {id : TransferId}
    {payload : Bytes} (h : b.Accounted config)
    (hnone : b.outbound.lookup (peer, id) = none) (hroom : b.Room config peer payload)
    (now : Nat) :
    Accounted config { b with
      totalBytes := b.totalBytes + payload.length
      outbound := b.outbound.insert (peer, id) ⟨payload, now, now, 0⟩ } := by
  have hweigh := fun f : P × TransferId → OutboundTransfer → Nat =>
    HashMap.weigh_insert_of_none f hnone ⟨payload, now, now, 0⟩
  refine ⟨?_, ?_, hroom.bytes, ?_, ?_, ?_⟩
  · have htally := hweigh fun _ t => t.payload.length
    have htotal := h.total
    simp only [HashMap.weigh, HashMap.tally] at htally htotal ⊢
    omega
  · have hlen := hroom.transfers
    rw [len_eq_weigh] at hlen ⊢
    rw [hweigh]
    omega
  · intro p
    have hcount := hroom.peerTransfers
    have hold := h.peerTransfers p
    rw [peerTransferCount_eq] at hold hcount ⊢
    rw [hweigh, ofPeer]
    split
    · next hp =>
      cases hp
      simp only at hcount ⊢
      omega
    · omega
  · intro p
    have hbytes := hroom.peerBytes
    have hold := h.peerBytes p
    rw [peerBytes_eq] at hold hbytes ⊢
    rw [hweigh, ofPeer]
    split
    · next hp =>
      cases hp
      simp only
      omega
    · omega
  · intro k u hu
    simp only [HashMap.lookup_insert_eq] at hu
    split at hu
    · cases hu
      exact Nat.zero_le _
    · exact h.rounds k u hu

inductive BookEvent (P : Type) where
  | recordCapability (peer : P) (now maxPeers : Nat)
  | supports (peer : P) (now : Nat)
  | retain (peer : P) (id : TransferId) (payload : Bytes) (now : Nat)
  | payloadForReport (peer : P) (id : TransferId) (now : Nat)
  | complete (peer : P) (id : TransferId)
  | forget (peer : P) (id : TransferId)
  | expire (now : Nat)

inductive BookOutcome where
  | done
  | answered (result : Bool)
  | retained (report : RetainReport)
  | served (payload : Option RecoveryPayload)

def handle (config : FramingConfig) (b : RecoveryBook P) :
    BookEvent P → BookOutcome × RecoveryBook P
  | .recordCapability peer now maxPeers => (.done, b.recordCapability peer now config maxPeers)
  | .supports peer now =>
    let result := b.supports peer now config
    (.answered result.2, result.1)
  | .retain peer id payload now =>
    let result := b.retain peer id payload now config
    (.retained result.2, result.1)
  | .payloadForReport peer id now =>
    let result := b.payloadForReport peer id now config
    (.served result.2, result.1)
  | .complete peer id =>
    let result := b.complete peer id
    (.answered result.2, result.1)
  | .forget peer id =>
    let result := b.forget peer id
    (.answered result.2, result.1)
  | .expire now => (.done, b.expire now config)

def inserts (key : P × TransferId) : BookEvent P × BookOutcome → Bool
  | (.retain peer id _ _, .retained report) => (peer, id) = key && newlyKept report
  | _ => false

def serves (key : P × TransferId) : BookEvent P × BookOutcome → Bool
  | (.payloadForReport peer id _, .served (some _)) => (peer, id) = key
  | _ => false

theorem pruned_expire (b : RecoveryBook P) (now : Nat) (config : FramingConfig) :
    Pruned b (b.expire now config) :=
  (Pruned.refl.learn _).trans (pruned_expireOutbound _ now config.recoveryTtl)

theorem pruned_recordCapability (b : RecoveryBook P) (peer : P) (now : Nat)
    (config : FramingConfig) (maxPeers : Nat) :
    Pruned b (b.recordCapability peer now config maxPeers) := by
  unfold recordCapability
  have hexpire := b.pruned_expire now config
  split
  · simp only
    split
    · exact hexpire.learn _
    · exact hexpire
  · exact .refl

theorem pruned_supports (b : RecoveryBook P) (peer : P) (now : Nat) (config : FramingConfig) :
    Pruned b (b.supports peer now config).1 := by
  unfold supports
  split
  · exact Pruned.refl.learn _
  · exact .refl

inductive Step (config : FramingConfig) (b : RecoveryBook P) :
    BookEvent P × BookOutcome → RecoveryBook P → Prop where
  | retain {id : TransferId} (heffect : RetainEffect config b peer id payload now (b', report)) :
    Step config b (.retain peer id payload now, .retained report) b'
  | serve {id : TransferId} (hp : Pruned b b') (ht : b'.outbound.lookup (peer, id) = some t)
    (hpayload : t'.payload = t.payload)
    (hround : t.recoveryRounds < config.maxSelectiveRecoveryRounds)
    (hrounds : t'.recoveryRounds = t.recoveryRounds + 1) :
    Step config b (.payloadForReport peer id now, .served (some served))
      { b' with outbound := b'.outbound.insert (peer, id) t' }
  | prune (hp : Pruned b b') (hinserts : ∀ key, inserts key x = false)
    (hserves : ∀ key, serves key x = false) : Step config b x b'

theorem step_handle (config : FramingConfig) (b : RecoveryBook P) (e : BookEvent P) :
    Step config b (e, (b.handle config e).1) (b.handle config e).2 := by
  cases e with
  | recordCapability peer now maxPeers =>
    exact .prune (b.pruned_recordCapability peer now config maxPeers) (fun _ => rfl) fun _ => rfl
  | supports peer now =>
    exact .prune (b.pruned_supports peer now config) (fun _ => rfl) fun _ => rfl
  | retain peer id payload now => exact .retain (b.retain_effect peer id payload now config)
  | payloadForReport peer id now =>
    rcases b.payloadForReport_cases peer id now config with
      ⟨hp, hnone⟩ | ⟨b', t, t', hp, ht, hpayload, hround, hrounds, hb, served, hserved⟩
    · simp only [handle, hnone]
      exact .prune hp (fun _ => rfl) fun _ => rfl
    · simp only [handle, hb, hserved]
      exact .serve hp ht hpayload hround hrounds
  | complete peer id => exact .prune (Pruned.refl.remove _) (fun _ => rfl) fun _ => rfl
  | forget peer id => exact .prune (Pruned.refl.remove _) (fun _ => rfl) fun _ => rfl
  | expire now => exact .prune (b.pruned_expire now config) (fun _ => rfl) fun _ => rfl

theorem Accounted.step {config : FramingConfig} {b b' : RecoveryBook P} (h : b.Accounted config)
    (hs : Step config b x b') : b'.Accounted config := by
  cases hs with
  | retain heffect =>
    cases heffect with
    | refused hp => exact h.pruned hp
    | known hp ht hpayload hrounds =>
      exact (h.pruned hp).replace ht hpayload (hrounds ▸ (h.pruned hp).rounds _ _ ht)
    | added hp hnone hroom => exact (h.pruned hp).add hnone hroom _
  | serve hp ht hpayload hround hrounds => exact (h.pruned hp).replace ht hpayload (hrounds ▸ hround)
  | prune hp => exact h.pruned hp

/-- What a step that does not take the transfer in does to its entry: it is served one round more, or
it stays as often served as it was, if it stays at all. -/
theorem Step.entry {config : FramingConfig} {b b' : RecoveryBook P} (hs : Step config b x b')
    (hx : inserts key x = false) :
    (serves key x = true ∧ ∃ t t', b.outbound.lookup key = some t ∧
      b'.outbound.lookup key = some t' ∧ t'.recoveryRounds = t.recoveryRounds + 1) ∨
    (serves key x = false ∧ ∀ t', b'.outbound.lookup key = some t' →
      ∃ t, b.outbound.lookup key = some t ∧ t'.recoveryRounds = t.recoveryRounds) := by
  cases hs with
  | retain heffect =>
    refine .inr ⟨rfl, ?_⟩
    cases heffect with
    | refused hp => exact fun t' ht' => ⟨t', hp.lookup ht', rfl⟩
    | known hp ht _ hrounds =>
      intro u hu
      simp only [HashMap.lookup_insert_eq] at hu
      split at hu
      · next hk =>
        cases hu
        rw [hk]
        exact ⟨_, hp.lookup ht, hrounds⟩
      · exact ⟨u, hp.lookup hu, rfl⟩
    | added hp _ _ hr =>
      intro u hu
      simp only [HashMap.lookup_insert_eq] at hu
      split at hu
      · next hk =>
        rw [inserts, hr, Bool.and_true, decide_eq_false_iff_not] at hx
        exact absurd hk.symm hx
      · exact ⟨u, hp.lookup hu, rfl⟩
  | @serve b' peer t now served t' id hp ht _ _ hrounds =>
    by_cases hk : (peer, id) = key
    · refine .inl ⟨decide_eq_true hk, t, t', hk ▸ hp.lookup ht, ?_, hrounds⟩
      simp only [HashMap.lookup_insert_eq, if_pos hk.symm]
    · refine .inr ⟨decide_eq_false hk, ?_⟩
      intro u hu
      simp only [HashMap.lookup_insert_eq, if_neg (Ne.symm hk)] at hu
      exact ⟨u, hp.lookup hu, rfl⟩
  | prune hp _ hserves => exact .inr ⟨hserves key, fun t' ht' => ⟨t', hp.lookup ht', rfl⟩⟩

theorem accounted_of_traces {config : FramingConfig} {tr : List (BookEvent P × BookOutcome)}
    (h : Traces (handle config) forIdentity tr b) : Accounted config b := by
  refine h.invariant (fun _ => Accounted config) ?_ fun _ _ e ha => ha.step (step_handle config _ e)
  refine ⟨rfl, Nat.zero_le _, Nat.zero_le _, fun _ => Nat.zero_le _, fun _ => Nat.zero_le _, ?_⟩
  rintro key t ⟨⟩

/-- While a transfer is not taken in anew, the rounds it was served are counted at its entry. -/
theorem served_le {config : FramingConfig} {tr : List (BookEvent P × BookOutcome)}
    (h : Traces (handle config) b₀ tr b) (h₀ : Accounted config b₀)
    (hinserts : ∀ x ∈ tr, inserts key x = false) :
    tr.countP (serves key) ≤ config.maxSelectiveRecoveryRounds := by
  have hinv := h.invariant (fun tr b => Accounted config b ∧
    ((∀ x ∈ tr, inserts key x = false) →
      tr.countP (serves key) ≤ config.maxSelectiveRecoveryRounds ∧
      ∀ t, b.outbound.lookup key = some t → tr.countP (serves key) ≤ t.recoveryRounds))
    ⟨h₀, fun _ => ⟨Nat.zero_le _, fun _ _ => Nat.zero_le _⟩⟩ ?_
  · exact (hinv.2 hinserts).1
  · rintro tr b e ⟨ha, hcount⟩
    have hstep := step_handle config b e
    have ha' := ha.step hstep
    refine ⟨ha', ?_⟩
    intro hall
    obtain ⟨hmax, hround⟩ := hcount fun x hx => hall x (List.mem_append_left _ hx)
    rw [List.countP_append, List.countP_singleton]
    rcases hstep.entry (hall _ (List.mem_append_right _ List.mem_cons_self)) with
      ⟨hserves, t, t', ht, ht', hrounds⟩ | ⟨hserves, hentry⟩
    · -- the entry counts the new round too, and is still within its limit
      have hold := hround t ht
      have hnew := ha'.rounds key t' ht'
      rw [if_pos hserves]
      refine ⟨by omega, ?_⟩
      intro u hu
      cases ht'.symm.trans hu
      omega
    · rw [hserves, if_neg Bool.false_ne_true, Nat.add_zero]
      refine ⟨hmax, ?_⟩
      intro u hu
      obtain ⟨t, ht, hrounds⟩ := hentry u hu
      rw [hrounds]
      exact hround t ht

/-- In every run of a book with a fixed configuration the byte counter is the sum of the kept
payloads, all four limits hold, and a transfer is served at most the configured rounds between one
time it is taken in and the next; no other step brings it in. -/
theorem book_accounted {config : FramingConfig} {tr : List (BookEvent P × BookOutcome)}
    (h : Traces (handle config) forIdentity tr b) :
    b.totalBytes = (b.outbound.toList.map fun t => t.2.payload.length).sum ∧
    b.outbound.len ≤ config.maxTotalOutboundRecoveryTransfers ∧
    b.totalBytes ≤ config.maxTotalOutboundRecoveryBytes ∧
    (∀ peer, b.peerTransferCount peer ≤ config.maxOutboundRecoveryTransfersPerPeer ∧
      b.peerBytes peer ≤ config.maxOutboundRecoveryBytesPerPeer) ∧
    (∀ key tr₁ tr₂ tr₃, tr = tr₁ ++ (tr₂ ++ tr₃) → (∀ x ∈ tr₂, inserts key x = false) →
      tr₂.countP (serves key) ≤ config.maxSelectiveRecoveryRounds) ∧
    ∀ key e, inserts key (e, (b.handle config e).1) = false → b.outbound.lookup key = none →
      (b.handle config e).2.outbound.lookup key = none := by
  have ha := accounted_of_traces h
  refine ⟨ha.total, ha.transfers, ha.bytes, fun peer => ⟨ha.peerTransfers peer, ha.peerBytes peer⟩,
    ?_, ?_⟩
  · rintro key tr₁ tr₂ tr₃ rfl hinserts
    obtain ⟨b₁, h₁, h₂⟩ := h.split
    obtain ⟨b₂, h₂, _⟩ := h₂.split
    exact served_le h₂ (accounted_of_traces h₁) hinserts
  · intro key e hx hnone
    rcases (step_handle config b e).entry hx with ⟨_, t, _, ht, _⟩ | ⟨_, hentry⟩
    · cases hnone.symm.trans ht
    · cases hk : (b.handle config e).2.outbound.lookup key with
      | none => rfl
      | some t =>
        obtain ⟨u, hu, _⟩ := hentry t hk
        cases hnone.symm.trans hu

def oneRound : FramingConfig := { selectiveRecovery := true, maxSelectiveRecoveryRounds := 1 }

/-- A kept payload is asked for twice and served once. -/
theorem book_accounted_one : ∃ (tr : List (BookEvent Nat × BookOutcome)) (b : RecoveryBook Nat),
    Traces (handle oneRound) forIdentity tr b ∧ b.totalBytes = 3 ∧
      b.totalBytes ≤ oneRound.maxTotalOutboundRecoveryBytes ∧ (tr.drop 1).length = 2 ∧
      (tr.drop 1).countP (serves (0, ⟨List.replicate 32 0, rfl⟩)) ≤ 1 := by
  have htraces := ((@Traces.start _ _ BookOutcome (handle oneRound) (forIdentity : RecoveryBook Nat)).snoc
    (.retain 0 ⟨List.replicate 32 0, rfl⟩ [1, 2, 3] 0)).snoc
      (.payloadForReport 0 ⟨List.replicate 32 0, rfl⟩ 1) |>.snoc
      (.payloadForReport 0 ⟨List.replicate 32 0, rfl⟩ 2)
  obtain ⟨_, _, hbytes, _, hserved, _⟩ := book_accounted htraces
  refine ⟨_, _, htraces, by decide +kernel, hbytes, rfl, ?_⟩
  apply hserved _ [_] _ [] (List.append_nil _).symm
  intro x hx
  rcases List.mem_pair.1 hx with rfl | rfl <;> rfl

end RecoveryBook

end Reconcile
