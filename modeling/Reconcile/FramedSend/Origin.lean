import Reconcile.FramedSend.Packing
import Reconcile.Framing.BookAccounting
import Reconcile.Framing.Codec

namespace Reconcile
open Lib Replay
set_option autoImplicit true

/-- What a frame carries comes from `W`: it is a payload of `W` as a whole, or a fragment under the
hash of one. A recovery control frame carries nothing. -/
structure CarriesFrom (hash : Bytes → TransferId) (W : Bytes → Prop) (frame : Bytes) : Prop where
  complete : ∀ body, frame = completeTag :: body → W body
  fragment : ∀ f, Reassembler.fragmentInput frame = some f → ∃ w, W w ∧ f.id = hash w

section Frames

variable {hash : Bytes → TransferId} {W W' : Bytes → Prop}

theorem CarriesFrom.mono (h : CarriesFrom hash W frame) (hW : ∀ w, W w → W' w) :
    CarriesFrom hash W' frame where
  complete body hb := hW body (h.complete body hb)
  fragment f hf := by
    obtain ⟨w, hw, hid⟩ := h.fragment f hf
    exact ⟨w, hW w hw, hid⟩

theorem fragmentInput_of_head (h : frame.head? ≠ some fragmentTag) :
    Reassembler.fragmentInput frame = none :=
  dif_neg fun hf => h hf.1

theorem readFragment_id (id : TransferId) (totalLen offset : Nat) (bytes : Bytes)
    (h : fragmentHeaderLen ≤ (fragmentFrame id totalLen offset bytes).length) :
    (readFragment (fragmentFrame id totalLen offset bytes) h).id = id := by
  apply Fixed.bytes_injective
  simp only [readFragment, Fixed.front, fragmentFrame, List.drop_succ_cons, List.drop_zero,
    List.append_assoc]
  exact List.take_left' id.length_eq

theorem carriesFrom_writeComplete (hw : W w) : CarriesFrom hash W (writeComplete w) where
  complete body hb := by
    cases hb
    exact hw
  fragment f hf := by
    rw [fragmentInput_of_head] at hf
    · cases hf
    · exact fun htag => absurd (Option.some.inj htag) (by decide)

theorem carriesFrom_fragmentFrame (hw : W w) (totalLen offset : Nat) (bytes : Bytes) :
    CarriesFrom hash W (fragmentFrame (hash w) totalLen offset bytes) where
  complete body hb := by
    rw [fragmentFrame] at hb
    exact absurd (List.cons.inj hb).1 (by decide)
  fragment f hf := by
    unfold Reassembler.fragmentInput at hf
    split at hf
    · cases hf
      exact ⟨w, hw, readFragment_id _ _ _ _ _⟩
    · cases hf

theorem carriesFrom_control
    (h : frame.head? = some missingReportTag ∨ frame.head? = some completionAckTag) :
    CarriesFrom hash W frame where
  complete body hb := by
    subst hb
    rcases h with h | h <;> exact absurd (Option.some.inj h) (by decide)
  fragment f hf := by
    rw [fragmentInput_of_head] at hf
    · cases hf
    · intro hhead
      rw [hhead] at h
      rcases h with h | h <;> exact absurd h (by decide)

theorem head_writeMissingReport {id : TransferId} (h : writeMissingReport id ranges = .ok frame) :
    frame.head? = some missingReportTag := by
  unfold writeMissingReport at h
  split at h
  · cases h
  split at h
  · cases h
  · cases h
    rfl

theorem eq_of_writeFragment {id : TransferId}
    (h : writeFragment id totalLen offset bytes = .ok frame) :
    frame = fragmentFrame id totalLen offset bytes := by
  unfold writeFragment at h
  split at h
  · cases h
  split at h
  · cases h
  · cases h
    rfl

theorem mem_writeFragments {id : TransferId} {ps : List (Nat × Bytes)}
    (h : writeFragments id totalLen ps = .ok frames) (hf : frame ∈ frames) :
    ∃ p ∈ ps, frame = fragmentFrame id totalLen p.1 p.2 := by
  induction ps generalizing frames with
  | nil =>
    cases h
    cases hf
  | cons p ps ih =>
    rw [writeFragments] at h
    cases hw : writeFragment id totalLen p.1 p.2 with
    | error e =>
      rw [hw] at h
      cases h
    | ok first =>
      cases hr : writeFragments id totalLen ps with
      | error e =>
        rw [hw, hr] at h
        cases h
      | ok rest =>
        rw [hw, hr] at h
        cases h
        rcases List.mem_cons.1 hf with rfl | hf
        · exact ⟨p, List.mem_cons_self, eq_of_writeFragment hw⟩
        · obtain ⟨q, hq, he⟩ := ih hr hf
          exact ⟨q, List.mem_cons_of_mem p hq, he⟩

theorem carriesFrom_writeFragments (hw : W w) {ps : List (Nat × Bytes)}
    (h : writeFragments (hash w) totalLen ps = .ok frames) :
    ∀ frame ∈ frames, CarriesFrom hash W frame := by
  intro frame hf
  obtain ⟨p, _, rfl⟩ := mem_writeFragments h hf
  exact carriesFrom_fragmentFrame hw _ _ _

end Frames

namespace Reassembler

variable {P : Type} [LinearOrder P] {hash : Bytes → TransferId} {W : Bytes → Prop}

theorem Accepted.hash_complete {r : Reassembler P} {f : FragmentInput} (h : Accepted hash r peer f now out)
    (hout : out.2.2 = .ok (.complete payload)) : hash payload = f.id := by
  cases h with
  | refused h e => cases hout
  | duplicate ht hm => cases hout
  | stored h ht hlen hfits =>
    simp only [store] at hout
    split at hout
    · cases hout
    split at hout
    · cases hout
    next hhash =>
    cases hout
    exact not_not.1 hhash

/-- A payload completed by a frame that carries from `W` has the hash of one in `W`. -/
theorem accept_complete {r : Reassembler P} (h : CarriesFrom hash W bytes)
    (hout : (r.accept hash peer bytes now).2.outcome = .ok (.complete payload)) :
    ∃ w, W w ∧ hash w = hash payload := by
  cases hf : fragmentInput bytes with
  | some f =>
    rw [accept_outcome hf] at hout
    obtain ⟨w, hw, hid⟩ := h.fragment f hf
    have hhash := (acceptFragment_accepted hash (r.expire now).1 peer f now).hash_complete hout
    exact ⟨w, hw, hid.symm.trans hhash.symm⟩
  | none =>
    cases bytes with
    | nil => cases hout
    | cons tag body =>
      simp only [accept] at hout
      split at hout
      · next htag =>
        split at hout
        · cases hout
        · cases hout
          exact ⟨payload, h.complete payload (by rw [htag]), rfl⟩
      split at hout
      · cases hout
      next htag =>
      split at hout
      · next hlen =>
        rw [fragmentInput, dif_pos ⟨congrArg some (not_not.1 htag), hlen⟩] at hf
        cases hf
      · cases hout

theorem pendingFragmentEvent_not_logical (r : Reassembler P) (peer : P)
    (fragment : Option FragmentMetadata) (now maxMissingRanges : Nat) :
    (r.pendingFragmentEvent peer fragment now maxMissingRanges).2 ≠ .logical payload completed := by
  unfold pendingFragmentEvent
  split
  · nofun
  · simp only
    split <;> nofun

theorem acceptFrame_logical {r : Reassembler P} (h : CarriesFrom hash W bytes)
    (hout : (r.acceptFrame hash peer bytes maxMissingRanges now).2 =
      .logical payload completed) :
    ∃ w, W w ∧ hash w = hash payload := by
  unfold acceptFrame at hout
  split at hout
  · cases hout
  · cases hout
  · cases hout
  · simp only at hout
    split at hout
    · next hcomplete =>
      cases hout
      exact accept_complete h hcomplete
    · exact absurd hout (pendingFragmentEvent_not_logical _ _ _ _ _)
    · exact absurd hout (pendingFragmentEvent_not_logical _ _ _ _ _)
    · cases hout

end Reassembler

namespace RecoveryBook

variable {P : Type} [LinearOrder P] {hash : Bytes → TransferId} {W W' : Bytes → Prop}

/-- Every payload kept is in `W` and kept under its hash. -/
def KeepsFrom (hash : Bytes → TransferId) (W : Bytes → Prop) (b : RecoveryBook P) : Prop :=
  ∀ peer id t, b.outbound.lookup (peer, id) = some t → id = hash t.payload ∧ W t.payload

theorem KeepsFrom.mono {b : RecoveryBook P} (h : b.KeepsFrom hash W) (hW : ∀ w, W w → W' w) :
    b.KeepsFrom hash W' := by
  intro peer id t ht
  exact ⟨(h peer id t ht).1, hW _ (h peer id t ht).2⟩

theorem KeepsFrom.pruned {b b' : RecoveryBook P} (h : b.KeepsFrom hash W) (hp : Pruned b b') :
    b'.KeepsFrom hash W :=
  fun peer id t ht => h peer id t (hp.lookup ht)

theorem KeepsFrom.insert {b : RecoveryBook P} (h : b.KeepsFrom hash W) (peer : P)
    {id : TransferId} (hid : id = hash t.payload) (hw : W t.payload) (total : Nat) :
    KeepsFrom hash W { b with outbound := b.outbound.insert (peer, id) t, totalBytes := total } := by
  intro p i u hu
  rw [HashMap.lookup_insert_eq] at hu
  split at hu
  · next hk =>
    cases hu
    cases hk
    exact ⟨hid, hw⟩
  · exact h p i u hu

theorem KeepsFrom.retain {b : RecoveryBook P} (h : b.KeepsFrom hash W) (hw : W payload) (peer : P)
    (now : Nat) (config : FramingConfig) :
    (b.retain peer (hash payload) payload now config).1.KeepsFrom hash W := by
  generalize hout : b.retain peer (hash payload) payload now config = out
  have heffect := b.retain_effect peer (hash payload) payload now config
  rw [hout] at heffect
  cases heffect with
  | refused hp => exact h.pruned hp
  | @known b' t t' report hp ht hpayload =>
    have hkept := (h.pruned hp) peer _ t ht
    rw [← hpayload] at hkept
    exact (h.pruned hp).insert peer hkept.1 hkept.2 b'.totalBytes
  | added hp => exact (h.pruned hp).insert peer (t := ⟨payload, now, now, 0⟩) rfl hw _

theorem KeepsFrom.payloadForReport {b : RecoveryBook P} (h : b.KeepsFrom hash W) (peer : P)
    (id : TransferId) (now : Nat) (config : FramingConfig) :
    (b.payloadForReport peer id now config).1.KeepsFrom hash W ∧
      ∀ served, (b.payloadForReport peer id now config).2 = some served →
        id = hash served.payload ∧ W served.payload := by
  have hpruned := h.pruned (b.pruned_expireOutbound now config.recoveryTtl)
  unfold RecoveryBook.payloadForReport
  simp only
  split
  · exact ⟨hpruned, nofun⟩
  next t ht =>
  have hkept := hpruned peer id t ht
  split
  · exact ⟨hpruned, nofun⟩
  · refine ⟨hpruned.insert peer (t := { t with lastActivity := now, recoveryRounds := _ }) hkept.1
      hkept.2 _, ?_⟩
    rintro served ⟨⟩
    exact hkept

end RecoveryBook

theorem retransmit_carries [LinearOrder P] {hash : Bytes → TransferId} {W : Bytes → Prop}
    {b : RecoveryBook P} (h : b.KeepsFrom hash W)
    (config : FramingConfig) (overhead : Nat) (send : Bytes → Bool) (peer : P) (id : TransferId)
    (ranges : List (Nat × Nat)) (now : Nat) :
    (retransmitMissingTo config overhead send b peer id ranges now).1.KeepsFrom hash W ∧
      ∀ frame ∈ (retransmitMissingTo config overhead send b peer id ranges now).2.1,
        CarriesFrom hash W frame := by
  have hsupport := h.pruned (b.pruned_supports peer now config)
  obtain ⟨hkept, hserved⟩ := hsupport.payloadForReport peer id now config
  unfold retransmitMissingTo
  split
  · exact ⟨h, nofun⟩
  simp only
  split
  · exact ⟨hsupport, nofun⟩
  split
  · exact ⟨hkept, nofun⟩
  next recovery hrecovery =>
  obtain ⟨rfl, hw⟩ := hserved recovery hrecovery
  split
  · exact ⟨hkept, nofun⟩
  split
  · exact ⟨hkept, nofun⟩
  have hframes {c : Nat} : ∀ frame ∈ (sendFragments (hash recovery.payload) recovery.payload.length
      send (ranges.flatMap fun g => rangeFragments c recovery.payload g.1 (g.1 + g.2))).1,
      CarriesFrom hash W frame := by
    intro frame hf
    obtain ⟨_, p, _, rfl⟩ := SendPorts.mem_sendFragments hf
    exact carriesFrom_fragmentFrame hw _ _ _
  split
  · refine ⟨?_, hframes⟩
    split
    · exact hkept.pruned (RecoveryBook.Pruned.refl.remove _)
    · exact hkept
  · exact ⟨hkept, hframes⟩

namespace SendPorts

variable {P : Type} [LinearOrder P] {ports : SendPorts} {W : Bytes → Prop}

theorem sendLogicalPayload_carries {b : RecoveryBook P} (payload : Bytes)
    (h : b.KeepsFrom ports.hash W) (hw : W payload) (peer : P) (now : Nat) :
    (ports.sendLogicalPayload b peer payload now).1.KeepsFrom ports.hash W ∧
      ∀ frames, (ports.sendLogicalPayload b peer payload now).2 = .ok frames →
        ∀ frame ∈ frames, CarriesFrom ports.hash W frame := by
  have hnone : ∀ frames, Except.ok [] = (.ok frames : Except FrameError (List Bytes)) →
      ∀ frame ∈ frames, CarriesFrom ports.hash W frame := by
    rintro frames ⟨⟩
    exact nofun
  have hsupport := h.pruned (b.pruned_supports peer now ports.framing)
  unfold SendPorts.sendLogicalPayload
  split
  · exact ⟨h, hnone⟩
  split
  · exact ⟨h, hnone⟩
  split
  · refine ⟨h, ?_⟩
    rintro frames ⟨⟩ frame hf
    rw [List.mem_singleton.1 hf]
    exact carriesFrom_writeComplete hw
  split
  · exact ⟨h, hnone⟩
  split
  · exact ⟨h, hnone⟩
  simp only
  have hkept := hsupport.retain hw peer now ports.framing
  split
  · split
    · exact ⟨hkept, fun frames hframes => carriesFrom_writeFragments hw hframes⟩
    split
    · exact ⟨hkept, hnone⟩
    · exact ⟨hkept, fun frames hframes => carriesFrom_writeFragments hw hframes⟩
  · exact ⟨hsupport, fun frames hframes => carriesFrom_writeFragments hw hframes⟩

theorem sendReport_carries {b : RecoveryBook P} (h : b.KeepsFrom ports.hash W) (peer : P)
    (id : TransferId) (ranges : List (Nat × Nat)) (now : Nat) :
    (ports.sendReport b peer id ranges now).1.KeepsFrom ports.hash W ∧
      ∀ frame ∈ (ports.sendReport b peer id ranges now).2, CarriesFrom ports.hash W frame := by
  have hsupport := h.pruned (b.pruned_supports peer now ports.framing)
  unfold sendReport
  simp only
  split
  · split
    · next hwrite =>
      refine ⟨hsupport, ?_⟩
      intro frame hf
      rw [List.mem_singleton.1 hf]
      exact carriesFrom_control (.inl (head_writeMissingReport hwrite))
    · exact ⟨hsupport, nofun⟩
  · exact ⟨hsupport, nofun⟩

theorem sendReports_carries {b : RecoveryBook P} (h : b.KeepsFrom ports.hash W) (now : Nat)
    (requests : List (MissingRequest P)) :
    (ports.sendReports now requests b).1.KeepsFrom ports.hash W ∧
      ∀ frame ∈ (ports.sendReports now requests b).2, CarriesFrom ports.hash W frame := by
  induction requests generalizing b with
  | nil => exact ⟨h, nofun⟩
  | cons request requests ih =>
    obtain ⟨hfirst, hframes⟩ := ports.sendReport_carries h request.peer request.transferId
      request.ranges now
    obtain ⟨hrest, hframes'⟩ := ih hfirst
    refine ⟨hrest, ?_⟩
    intro frame hf
    rcases List.mem_append.1 hf with hf | hf
    · exact hframes frame hf
    · exact hframes' frame hf

theorem retryIdleIncomplete_carries {e : Endpoint P} (h : e.recovery.KeepsFrom ports.hash W)
    (now : Nat) : (ports.retryIdleIncomplete e now).1.recovery.KeepsFrom ports.hash W ∧
      ∀ frame ∈ (ports.retryIdleIncomplete e now).2, CarriesFrom ports.hash W frame := by
  unfold retryIdleIncomplete
  split
  · exact ⟨h, nofun⟩
  · exact ports.sendReports_carries h now _

theorem receiveFrame_carries {e : Endpoint P} (h : e.recovery.KeepsFrom ports.hash W) (peer : P)
    (bytes : Bytes) (now : Nat) :
    (ports.receiveFrame e peer bytes now).1.recovery.KeepsFrom ports.hash W ∧
      ∀ frame ∈ (ports.receiveFrame e peer bytes now).2.2, CarriesFrom ports.hash W frame := by
  have hsupport := h.pruned (e.recovery.pruned_supports peer now ports.framing)
  unfold receiveFrame
  simp only
  split
  · exact ⟨h, nofun⟩
  · refine ⟨hsupport, ?_⟩
    split
    · intro frame hf
      rw [List.mem_singleton.1 hf]
      exact carriesFrom_control (.inr rfl)
    · exact nofun
  · exact ports.sendReport_carries h peer _ _ now
  · exact retransmit_carries h _ _ _ peer _ _ now
  · exact ⟨h.pruned (RecoveryBook.Pruned.refl.remove _), nofun⟩
  · exact ⟨h, nofun⟩

/-- A payload handed on was in `W`, up to a collision of the hash. -/
theorem receiveFrame_payload {e : Endpoint P} (h : CarriesFrom ports.hash W bytes)
    (hout : (ports.receiveFrame e peer bytes now).2.1 = some payload) :
    ∃ w, W w ∧ ports.hash w = ports.hash payload := by
  unfold receiveFrame at hout
  simp only at hout
  split at hout
  · next hevent =>
    cases hout
    exact Reassembler.acceptFrame_logical h hevent
  · next hevent =>
    cases hout
    exact Reassembler.acceptFrame_logical h hevent
  · cases hout
  · cases hout
  · cases hout
  · cases hout

def Sealed (ports : SendPorts) (W : Bytes → Prop) (datagram : Bytes) : Prop :=
  ∃ frame seq stamp nonce, CarriesFrom ports.hash W frame ∧
    datagram = ports.authenticator.seal ports.primitives seq stamp nonce frame

theorem Sealed.mono {W' : Bytes → Prop} (h : ports.Sealed W datagram) (hW : ∀ w, W w → W' w) :
    ports.Sealed W' datagram := by
  obtain ⟨frame, seq, stamp, nonce, hcarries, he⟩ := h
  exact ⟨frame, seq, stamp, nonce, hcarries.mono hW, he⟩

theorem sealed_sendFrames {frames : List Bytes}
    (h : ∀ frame ∈ frames, CarriesFrom ports.hash W frame) (counter : SenderCounter) :
    ∀ datagram ∈ (ports.sendFrames counter frames).2, ports.Sealed W datagram := by
  induction frames generalizing counter with
  | nil => exact nofun
  | cons frame frames ih =>
    intro datagram hd
    rcases List.mem_cons.1 hd with rfl | hd
    · exact ⟨frame, _, _, _, h frame List.mem_cons_self, rfl⟩
    · exact ih (fun f hf => h f (List.mem_cons_of_mem frame hf)) _ datagram hd

end SendPorts

end Reconcile
