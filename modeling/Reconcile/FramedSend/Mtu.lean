import Reconcile.Boundary.Datagram
import Reconcile.FramedSend

namespace Reconcile
open Lib Replay
set_option autoImplicit true

namespace Transfer

theorem length_missingLoop {ranges : List (Nat × Nat)} (h : ranges.length < maxRanges) :
    (missingLoop total maxRanges cursor ps ranges).length ≤ maxRanges := by
  induction ps generalizing cursor ranges with
  | nil =>
    rw [missingLoop]
    split
    · rw [List.length_append]
      exact h
    · exact Nat.le_of_lt h
  | cons p ps ih =>
    rw [missingLoop]
    split
    · split
      · next hfull => exact hfull.le
      · next hroom =>
        rw [List.length_append, List.length_singleton] at hroom
        apply ih
        rw [List.length_append, List.length_singleton]
        omega
    · exact ih h

theorem length_missingRanges (t : Transfer) (maxRanges : Nat) :
    (t.missingRanges maxRanges).length ≤ maxRanges := by
  rw [missingRanges]
  split
  · exact Nat.zero_le _
  · next h => exact length_missingLoop (Nat.pos_of_ne_zero h)

end Transfer

namespace Reassembler

variable {P : Type} [LinearOrder P]

theorem length_missingRangesIfDue (r : Reassembler P) (peer : P) (id : TransferId)
    (now interval maxRanges : Nat) :
    (r.missingRangesIfDue peer id now interval maxRanges).2.length ≤ maxRanges := by
  unfold missingRangesIfDue
  split
  · exact Nat.zero_le _
  split
  · exact Nat.zero_le _
  next t ht =>
  split
  · split
    · exact Nat.zero_le _
    · exact t.length_missingRanges maxRanges
  · exact Nat.zero_le _

theorem pollLoop_ranges {reports : List (MissingRequest P)}
    (h : ∀ request ∈ reports, request.ranges.length ≤ maxRanges)
    (candidates : List (P × TransferId)) (r : Reassembler P) :
    ∀ request ∈ (pollLoop now maxRanges maxReports candidates r reports).2,
      request.ranges.length ≤ maxRanges := by
  induction candidates generalizing r reports with
  | nil => exact h
  | cons k candidates ih =>
    rw [pollLoop]
    split
    · exact h
    split
    · exact ih h r
    next t ht =>
    split
    · exact ih h r
    · apply ih
      intro request hrequest
      rcases List.mem_append.1 hrequest with hrequest | hrequest
      · exact h request hrequest
      · rw [List.mem_singleton.1 hrequest]
        exact t.length_missingRanges maxRanges

theorem pollIdleMissing_ranges (r : Reassembler P)
    (now minIdle interval maxRanges maxReports : Nat) :
    ∀ request ∈ (r.pollIdleMissing now minIdle interval maxRanges maxReports).2,
      request.ranges.length ≤ maxRanges := by
  unfold pollIdleMissing
  split
  · exact nofun
  split
  · exact nofun
  · exact pollLoop_ranges (fun _ h => (List.not_mem_nil h).elim) _ _

theorem acceptFrame_ranges {hash : Bytes → TransferId} {r : Reassembler P} {peer : P}
    {id : TransferId}
    (h : (r.acceptFrame hash peer bytes maxRanges now).2 = .requestMissing id ranges) :
    ranges.length ≤ maxRanges := by
  have hpending {r : Reassembler P} {fragment : Option FragmentMetadata}
      (h : (r.pendingFragmentEvent peer fragment now maxRanges).2 = .requestMissing id ranges) :
      ranges.length ≤ maxRanges := by
    unfold pendingFragmentEvent at h
    split at h
    · cases h
    · simp only at h
      split at h
      · cases h
      · cases h
        exact length_missingRangesIfDue _ _ _ _ _ _
  unfold acceptFrame at h
  split at h
  · cases h
  · cases h
  · cases h
  · simp only at h
    split at h
    · cases h
    · exact hpending h
    · exact hpending h
    · cases h

end Reassembler

/-- The frames that an endpoint sends: what a fragment frame carries is not empty, and its fields
hold the numbers they stand for. -/
inductive WellFramed : Bytes → Prop where
  | complete (payload : Bytes) : WellFramed (writeComplete payload)
  | fragment (id : TransferId) (hne : bytes ≠ []) (hend : offset + bytes.length ≤ totalLen)
      (hword : totalLen < 2 ^ 32) : WellFramed (fragmentFrame id totalLen offset bytes)
  | report {id : TransferId} (h : writeMissingReport id ranges = .ok frame) : WellFramed frame
  | ack (id : TransferId) : WellFramed (writeCompletionAck id)

namespace SendPorts

variable {P : Type} [LinearOrder P] {ports : SendPorts}

structure Fits (ports : SendPorts) (frame : Bytes) : Prop where
  framed : WellFramed frame
  length : frame.length + ports.overhead ≤ ports.framing.datagramPayloadBudget

structure Capacious (ports : SendPorts) (c : Nat) : Prop where
  pos : 0 < c
  capacities : capacities ports.overhead ports.framing = some (min
    (ports.framing.datagramPayloadBudget - (ports.overhead + completeHeaderLen))
    ports.framing.maxLogicalMessageSize, c)
  fragment : fragmentPayloadCapacity ports.framing.datagramPayloadBudget ports.overhead = some c
  budget : c + (ports.overhead + fragmentHeaderLen) = ports.framing.datagramPayloadBudget
  word : ports.framing.maxLogicalMessageSize < 2 ^ 32

theorem capacious (h : ports.framing.validate ports.overhead = .ok ()) :
    ports.Capacious (ports.framing.datagramPayloadBudget - (ports.overhead + fragmentHeaderLen)) := by
  obtain ⟨hmin, _, hword⟩ := (FramingConfig.validate_ok _ _).1 h
  unfold FramingConfig.minimumBudget at hmin
  unfold FramingConfig.maxWord at hword
  have hfragment : fragmentPayloadCapacity ports.framing.datagramPayloadBudget ports.overhead =
      some (ports.framing.datagramPayloadBudget - (ports.overhead + fragmentHeaderLen)) :=
    if_pos (by omega)
  have hcomplete : completePayloadCapacity ports.framing.datagramPayloadBudget ports.overhead =
      some (ports.framing.datagramPayloadBudget - (ports.overhead + completeHeaderLen)) := by
    unfold fragmentHeaderLen at hmin
    exact if_pos (by unfold completeHeaderLen; omega)
  refine ⟨by omega, ?_, hfragment, by omega, by omega⟩
  rw [Reconcile.capacities, hcomplete, hfragment]

theorem Capacious.fits_fragment (h : ports.Capacious c) (id : TransferId) {p : Nat × Bytes}
    (hlen : p.2.length ≤ c) (hne : p.2 ≠ []) (hend : p.1 + p.2.length ≤ totalLen)
    (hword : totalLen < 2 ^ 32) : ports.Fits (fragmentFrame id totalLen p.1 p.2) := by
  refine ⟨.fragment id hne hend hword, ?_⟩
  have hbudget := h.budget
  rw [fragmentFrame_length]
  omega

theorem Capacious.fits_report (h : ports.Capacious c) {id : TransferId}
    (hlen : ranges.length ≤ ports.maxMissingRanges)
    (hwrite : writeMissingReport id ranges = .ok frame) : ports.Fits frame := by
  refine ⟨.report hwrite, ?_⟩
  have hbudget := h.budget
  have hpos := h.pos
  refine report_le_budget hwrite ?_ hlen
  unfold fragmentHeaderLen at hbudget
  unfold missingReportHeaderLen
  omega

theorem Capacious.fits_ack (h : ports.Capacious c) (id : TransferId) :
    ports.Fits (writeCompletionAck id) := by
  refine ⟨.ack id, ?_⟩
  have hbudget := h.budget
  rw [writeCompletionAck, List.length_cons, id.length_eq]
  unfold fragmentHeaderLen at hbudget
  omega

theorem Capacious.writeFragments_originals (h : ports.Capacious c) (id : TransferId)
    (hsize : payload.length ≤ ports.framing.maxLogicalMessageSize) :
    ∃ frames, writeFragments id payload.length (originals c payload) = .ok frames ∧
      ∀ frame ∈ frames, ports.Fits frame := by
  have hword : payload.length < 2 ^ 32 := hsize.trans_lt h.word
  have hin {p : Nat × Bytes} (hp : p ∈ originals c payload) :=
    (Pieces.cut_spaced h.pos 0 payload).mem hp
  refine ⟨_, writeFragments_ok hword ?_, ?_⟩
  · intro p hp
    have hend := (hin hp).2.2
    omega
  · intro frame hframe
    obtain ⟨p, hp, rfl⟩ := List.mem_map.1 hframe
    have hend := (hin hp).2.2
    rw [Nat.zero_add] at hend
    exact h.fits_fragment id (Pieces.length_le_of_mem_cut h.pos hp) (hin hp).2.1 hend hword

theorem Capacious.sendLogicalPayload_fits (h : ports.Capacious c) (b : RecoveryBook P) (peer : P)
    (payload : Bytes) (now : Nat) :
    ∃ frames, (ports.sendLogicalPayload b peer payload now).2 = .ok frames ∧
      ∀ frame ∈ frames, ports.Fits frame := by
  unfold SendPorts.sendLogicalPayload
  simp only [h.capacities]
  split
  · exact ⟨[], rfl, nofun⟩
  next hsize =>
  split
  · next hcomplete =>
    refine ⟨_, rfl, ?_⟩
    intro frame hframe
    rw [List.mem_singleton.1 hframe]
    refine ⟨.complete payload, ?_⟩
    have hbudget := h.budget
    have hlen := hcomplete.trans (Nat.min_le_left _ _)
    unfold completeHeaderLen at hlen
    unfold fragmentHeaderLen at hbudget
    rw [writeComplete, List.length_cons]
    omega
  split
  · exact ⟨[], rfl, nofun⟩
  split
  · exact ⟨[], rfl, nofun⟩
  have hfragments := h.writeFragments_originals (ports.hash payload) (Nat.le_of_not_lt hsize)
  split
  · split
    · exact hfragments
    split
    · exact ⟨[], rfl, nofun⟩
    · exact hfragments
  · exact hfragments

theorem reportValid_end {ranges : List (Nat × Nat)} (h : reportValid length previous ranges = true) :
    ∀ g ∈ ranges, g.1 + g.2 ≤ length := by
  induction ranges generalizing previous with
  | nil => exact nofun
  | cons g ranges ih =>
    rw [reportValid] at h
    split at h
    · cases h
    next hg =>
    intro g' hg'
    rcases List.mem_cons.1 hg' with rfl | hg'
    · omega
    · exact ih h g' hg'

theorem mem_sendFragments {id : TransferId} {ps : List (Nat × Bytes)}
    (h : frame ∈ (sendFragments id totalLen send ps).1) :
    totalLen < 2 ^ 32 ∧ ∃ p ∈ ps, frame = fragmentFrame id totalLen p.1 p.2 := by
  induction ps with
  | nil => cases h
  | cons p ps ih =>
    rw [sendFragments, writeFragment] at h
    split at h
    · cases h
    next hwrite =>
    split at hwrite
    · cases hwrite
    next hword =>
    split at hwrite
    · cases hwrite
    cases hwrite
    split at h
    · rcases List.mem_cons.1 h with rfl | h
      · exact ⟨by omega, p, List.mem_cons_self, rfl⟩
      · obtain ⟨hlt, q, hq, he⟩ := ih h
        exact ⟨hlt, q, List.mem_cons_of_mem p hq, he⟩
    · cases h

theorem Capacious.retransmit_fits (h : ports.Capacious c) (b : RecoveryBook P) (peer : P)
    (id : TransferId) (ranges : List (Nat × Nat)) (now : Nat) :
    ∀ frame ∈ (retransmitMissingTo ports.framing ports.overhead ports.takes b peer id ranges now).2.1,
      ports.Fits frame := by
  unfold retransmitMissingTo
  split
  · exact nofun
  simp only
  split
  · exact nofun
  split
  · exact nofun
  next recovery _ =>
  simp only [h.fragment, Option.getD_some, if_neg h.pos.ne']
  split
  · exact nofun
  next hvalid =>
  have hfragment : ∀ frame ∈ (sendFragments id recovery.payload.length ports.takes
      (ranges.flatMap fun g => rangeFragments c recovery.payload g.1 (g.1 + g.2))).1,
      ports.Fits frame := by
    intro frame hframe
    obtain ⟨hword, p, hp, rfl⟩ := mem_sendFragments hframe
    obtain ⟨g, hg, hp⟩ := List.mem_flatMap.1 hp
    have hend := reportValid_end (by simpa using hvalid) g hg
    have hin := (Pieces.cut_spaced h.pos g.1 _).mem hp
    rw [List.length_take] at hin
    exact h.fits_fragment id (Pieces.length_le_of_mem_cut h.pos hp) hin.2.1 (by omega) hword
  split
  · exact hfragment
  · exact hfragment

theorem Capacious.sendReport_fits (h : ports.Capacious c) (b : RecoveryBook P) (peer : P)
    (id : TransferId) {ranges : List (Nat × Nat)} (hlen : ranges.length ≤ ports.maxMissingRanges)
    (now : Nat) : ∀ frame ∈ (ports.sendReport b peer id ranges now).2, ports.Fits frame := by
  unfold sendReport
  simp only
  split
  · split
    · next hwrite =>
      intro frame hframe
      rw [List.mem_singleton.1 hframe]
      exact h.fits_report hlen hwrite
    · exact nofun
  · exact nofun

theorem Capacious.sendReports_fits (h : ports.Capacious c) (now : Nat)
    {requests : List (MissingRequest P)}
    (hlen : ∀ request ∈ requests, request.ranges.length ≤ ports.maxMissingRanges)
    (b : RecoveryBook P) : ∀ frame ∈ (ports.sendReports now requests b).2, ports.Fits frame := by
  induction requests generalizing b with
  | nil => exact nofun
  | cons request requests ih =>
    intro frame hframe
    rcases List.mem_append.1 hframe with hframe | hframe
    · exact h.sendReport_fits _ _ _ (hlen request List.mem_cons_self) now frame hframe
    · exact ih (fun q hq => hlen q (List.mem_cons_of_mem request hq)) _ frame hframe

theorem Capacious.receiveFrame_fits (h : ports.Capacious c) (e : Endpoint P) (peer : P)
    (bytes : Bytes) (now : Nat) :
    ∀ frame ∈ (ports.receiveFrame e peer bytes now).2.2, ports.Fits frame := by
  unfold receiveFrame
  simp only
  split
  · exact nofun
  · split
    · intro frame hframe
      rw [List.mem_singleton.1 hframe]
      exact h.fits_ack _
    · exact nofun
  · next hevent => exact h.sendReport_fits _ _ _ (Reassembler.acceptFrame_ranges hevent) now
  · exact h.retransmit_fits _ _ _ _ _
  · exact nofun
  · exact nofun

theorem Capacious.retryIdleIncomplete_fits (h : ports.Capacious c) (e : Endpoint P) (now : Nat) :
    ∀ frame ∈ (ports.retryIdleIncomplete e now).2, ports.Fits frame := by
  unfold retryIdleIncomplete
  split
  · exact nofun
  · exact h.sendReports_fits now (Reassembler.pollIdleMissing_ranges _ _ _ _ _ _) _

theorem Capacious.frames_fit (h : ports.Capacious c) (e : Endpoint P) (call : EndpointCall P) :
    ∃ frames, (ports.frames e call).2 = .ok frames ∧ ∀ frame ∈ frames, ports.Fits frame := by
  cases call with
  | send peer payload now => exact h.sendLogicalPayload_fits _ _ _ _
  | receive peer frame now => exact ⟨_, rfl, h.receiveFrame_fits _ _ _ _⟩
  | retryIdle now => exact ⟨_, rfl, h.retryIdleIncomplete_fits _ _⟩
  | recordCapability peer now => exact ⟨[], rfl, nofun⟩
  | expireRecovery now => exact ⟨[], rfl, nofun⟩

/-- A datagram within the budget that seals a frame with sound fields. -/
def SafeDatagram (ports : SendPorts) (datagram : Bytes) : Prop :=
  datagram.length ≤ ports.framing.datagramPayloadBudget ∧
    ∃ frame seq stamp nonce, WellFramed frame ∧
      datagram = ports.authenticator.seal ports.primitives seq stamp nonce frame

theorem sendFrames_safe {frames : List Bytes} (h : ∀ frame ∈ frames, ports.Fits frame)
    (counter : SenderCounter) :
    ∀ datagram ∈ (ports.sendFrames counter frames).2, ports.SafeDatagram datagram := by
  induction frames generalizing counter with
  | nil => exact nofun
  | cons frame frames ih =>
    intro datagram hdatagram
    rcases List.mem_cons.1 hdatagram with rfl | hdatagram
    · have hfits := h frame List.mem_cons_self
      refine ⟨?_, frame, _, _, _, hfits.framed, rfl⟩
      rw [sendFrameToRetry, Authenticator.length_seal]
      exact hfits.length
    · exact ih (fun f hf => h f (List.mem_cons_of_mem frame hf)) _ datagram hdatagram

theorem Capacious.step_safe (h : ports.Capacious c) (e : Endpoint P) (call : EndpointCall P) :
    ∃ out, ports.step e call = .ok out ∧ ∀ datagram ∈ out.2, ports.SafeDatagram datagram := by
  obtain ⟨frames, hframes, hfit⟩ := h.frames_fit e call
  refine ⟨({ (ports.frames e call).1 with counter := (ports.sendFrames e.counter frames).1 },
    (ports.sendFrames e.counter frames).2), ?_, sendFrames_safe hfit e.counter⟩
  rw [step, hframes]
  rfl

theorem Capacious.run_safe (h : ports.Capacious c) (e : Endpoint P)
    (calls : List (EndpointCall P)) :
    ∃ out, ports.run e calls = .ok out ∧ ∀ datagram ∈ out.2, ports.SafeDatagram datagram := by
  induction calls generalizing e with
  | nil => exact ⟨_, rfl, nofun⟩
  | cons call calls ih =>
    obtain ⟨first, hfirst, hsafe⟩ := h.step_safe e call
    obtain ⟨rest, hrest, hsafe'⟩ := ih first.1
    refine ⟨(rest.1, first.2 ++ rest.2), ?_, ?_⟩
    · rw [run, hfirst]
      change (ports.run first.1 calls >>= fun rest => pure (rest.1, first.2 ++ rest.2)) = _
      rw [hrest]
      rfl
    · intro datagram hdatagram
      rcases List.mem_append.1 hdatagram with hdatagram | hdatagram
      · exact hsafe datagram hdatagram
      · exact hsafe' datagram hdatagram

/-- With a valid configuration and any authenticator the capacities exist, no call of an endpoint
fails, and what it sends are datagrams within the budget, with sound fields in every fragment. -/
theorem datagrams_mtu_safe (ports : SendPorts)
    (hvalid : ports.framing.validate ports.authenticator.overhead = .ok ()) (e : Endpoint P)
    (calls : List (EndpointCall P)) :
    (∃ complete fragment, capacities ports.overhead ports.framing = some (complete, fragment) ∧
      0 < fragment) ∧
    ports.overhead + missingReportHeaderLen ≤ ports.framing.datagramPayloadBudget ∧
    ∃ e' datagrams, ports.run e calls = .ok (e', datagrams) ∧
      ∀ datagram ∈ datagrams, ports.SafeDatagram datagram := by
  have h := ports.capacious hvalid
  obtain ⟨⟨e', datagrams⟩, hrun, hsafe⟩ := h.run_safe e calls
  refine ⟨⟨_, _, h.capacities, h.pos⟩, ?_, e', datagrams, hrun, hsafe⟩
  have hbudget := h.budget
  unfold fragmentHeaderLen at hbudget
  unfold missingReportHeaderLen
  omega

def smallest : SendPorts where
  primitives := Boundary.unchecked
  hash _ := Boundary.zeros 32
  authenticator := .disabled
  framing := { datagramPayloadBudget := 43 }
  maxPeers := 1
  takes _ := true
  nowMs _ := 0
  nonce _ := Boundary.zeros 24

theorem datagrams_mtu_safe_smallest :
    let e : Endpoint Nat := ⟨.forIdentity, .forIdentity smallest.framing.reassemblyLimits, {}⟩
    ∃ e' datagrams, smallest.run e [.send 1 (List.replicate 42 7) 0] = .ok (e', datagrams) ∧
      datagrams.length = 42 ∧ ∀ datagram ∈ datagrams, smallest.SafeDatagram datagram := by
  intro e
  obtain ⟨_, _, e', datagrams, hrun, hsafe⟩ :=
    datagrams_mtu_safe smallest (by decide) e [.send 1 (List.replicate 42 7) 0]
  refine ⟨e', datagrams, hrun, ?_, hsafe⟩
  have hcount : (smallest.run e [.send 1 (List.replicate 42 7) 0]).map (fun out => out.2.length) =
      .ok 42 := by
    decide +kernel
  rw [hrun] at hcount
  injection hcount

end SendPorts

end Reconcile
