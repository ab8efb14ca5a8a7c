import Reconcile.Framing.Polling
import Reconcile.SignedNode.Running

namespace Reconcile
open Lib Lib.Action
set_option autoImplicit true

namespace SignedNode

variable {K V A : Type} {E : SignedSuite K V} {s s' : SignedNode K V A}

def reportRanges (s : SignedNode K V A) : Nat :=
  maxMissingRangesForBudget s.boundary.payloadBudget 0 s.framing.maxMissingRangesPerReport

/-- The transfers that a tick is going to ask for: of those that have not expired, have been idle
for two seconds and had no request for three, the first sixteen. -/
def requested (s : SignedNode K V A) (now : Nat) : List (PeerId × TransferId) :=
  if s.framing.selectiveRecovery ∧ 0 < s.reportRanges then
    ((s.reassembler.expire now).1.idleCandidates now 2000 3000).take 16
  else []

theorem polled_eq (s : SignedNode K V A) (now : Nat) : s.polled now =
    if s.framing.selectiveRecovery ∧ 0 < s.reportRanges then
      Reassembler.pollLoop now s.reportRanges 16
        ((s.reassembler.expire now).1.idleCandidates now 2000 3000) (s.reassembler.expire now).1 []
    else ((s.reassembler.expire now).1, []) := by
  unfold polled
  split
  · next hselective =>
    change Reassembler.pollIdleMissing _ now 2000 3000 s.reportRanges 16 = _
    rw [Reassembler.pollIdleMissing]
    split
    · next hzero => rw [if_neg fun h => h.2.ne' hzero]
    · next hpos => rw [if_neg (by decide), if_pos ⟨hselective, Nat.pos_of_ne_zero hpos⟩]
  · next hselective => rw [if_neg fun h => hselective h.1]

theorem keys_polled (h : s.reassembler.Accounted) (now : Nat) :
    (s.polled now).2.map MissingRequest.key = s.requested now := by
  rw [polled_eq, requested]
  split
  · next hon =>
    rw [← Reassembler.pollIdleMissing_eq hon.2 (by decide)]
    exact (h.expire now).pollIdleMissing_reports hon.2 (by decide)
  · rfl

theorem transfer_of_polled (hin : request ∈ (s.polled now).2) : 0 < s.reportRanges ∧ ∃ t,
    (s.polled now).1.transfer request.peer request.transferId = some t ∧
    t.lastMissingRequest = some now ∧ request.ranges = t.missingRanges s.reportRanges := by
  rw [polled_eq] at hin ⊢
  split at hin
  · next hon =>
    rw [if_pos hon]
    exact ⟨hon.2, (Reassembler.pollLoop_marks hin).resolve_left List.not_mem_nil⟩
  · cases hin

theorem transfer_polled {id : TransferId} (ht : (s.polled now).1.transfer peer id = some t') :
    s.reassembler.transfer peer id = some t' ∨
    ⟨peer, id, t'.missingRanges s.reportRanges⟩ ∈ (s.polled now).2 := by
  have hexpire (h : (s.reassembler.expire now).1.transfer peer id = some t') :
      s.reassembler.transfer peer id = some t' := by
    rw [Reassembler.transfer_expire, Option.filter_eq_some_iff] at h
    exact h.1
  by_cases hk : (peer, id) ∈ (s.polled now).2.map MissingRequest.key
  · obtain ⟨request, hin, hkey⟩ := List.mem_map.1 hk
    cases hkey
    obtain ⟨_, t, htransfer, _, hranges⟩ := transfer_of_polled hin
    cases ht.symm.trans htransfer
    rw [← hranges]
    exact .inr hin
  · rw [polled_eq] at hk ht
    split at hk
    · next hon =>
      rw [if_pos hon] at ht
      exact .inl (hexpire ((Reassembler.transfer_pollLoop_of_not_mem hk).symm.trans ht))
    · next hoff =>
      rw [if_neg hoff] at ht
      exact .inl (hexpire ht)

theorem advances_requested (h : s.reassembler.Accounted) (hk : k ∈ s.requested now) : ∃ t t',
    s.reassembler.transfer k.1 k.2 = some t ∧ (s.polled now).1.transfer k.1 k.2 = some t' ∧
    t'.lastMissingRequest ≠ t.lastMissingRequest := by
  have hkey := hk
  rw [← keys_polled h] at hkey
  obtain ⟨request, hin, rfl⟩ := List.mem_map.1 hkey
  obtain ⟨_, t', ht', hmarked, _⟩ := transfer_of_polled hin
  rw [requested] at hk
  split at hk
  · obtain ⟨t, ht, _, hdue⟩ := Reassembler.mem_idleCandidates.1 (List.mem_of_mem_take hk)
    rw [Reassembler.transfer_expire, Option.filter_eq_some_iff] at ht
    refine ⟨t, t', ht.1, ht', fun he => ?_⟩
    rw [hmarked] at he
    -- a request of this instant would not be due
    rw [Transfer.due, ← he] at hdue
    simp at hdue
  · cases hk

theorem Running.reportable (h : s.Running config) (hin : request ∈ (s.polled now).2) :
    ¬s.Unreportable request := by
  rintro ⟨hroute, hframe⟩
  obtain ⟨hpos, t, ht, _, hranges⟩ := transfer_of_polled hin
  obtain ⟨haccounted, hlimits⟩ := accounted_polled h.accounted now
  have hsize := (haccounted.unfinished _ _ _ ht).size
  rw [hlimits, h.limits, ← h.framing] at hsize
  have hword : t.totalLen < 2 ^ 32 := hsize.trans_lt h.configured.word
  have hmax : s.reportRanges ≤ 65535 := Nat.min_le_right _ _
  obtain ⟨frame, hwrite⟩ := t.writeMissingReport_missingRanges hword hmax request.transferId
  have hcount : (t.missingRanges s.reportRanges).length ≤ s.reportRanges := by
    rw [t.missingRanges_eq hword]
    exact List.length_take_le _ _
  have hroom : 0 + missingReportHeaderLen ≤ s.boundary.payloadBudget := by
    by_contra hn
    rw [reportRanges, maxMissingRangesForBudget, if_neg hn, Nat.zero_min, Nat.zero_min] at hpos
    exact Nat.lt_irrefl 0 hpos
  have hfits := report_le_budget hwrite hroom hcount
  have hlen := length_writeMissingReport hwrite
  have hover := s.boundary.authenticator.overhead_le
  rw [← hranges] at hwrite
  rcases hframe frame hwrite with hnone | hlong | hlong
  · rw [hasRoute, hnone] at hroute
    cases hroute
  · exact absurd hlong (Nat.not_lt.2 hfits)
  · unfold Overlong at hlong
    unfold missingReportHeaderLen missingRangeLen at hlen
    omega

variable [LinearOrder K]

/-- A tick of a running node fails at the entry of a peer only. -/
theorem Running.interrupted (h : s.Running config) (hf : s.TickFails E now e s') :
    ∃ served, (s.turning now).Interrupted E s.rotation served e s' := by
  cases hf with
  | report _ hpolled =>
    obtain ⟨request, hin, hu⟩ := hpolled
    exact absurd hu (h.reportable hin)
  | update _ _ hinterrupted => exact ⟨_, hinterrupted⟩

theorem Ticked.front (h : s.Ticked E now out s') :
    ∃ reports, reports <+: out ∧ List.Forall₂ (s.Reports E) (s.reported now) reports := by
  cases h with
  | rests hreports => exact ⟨_, List.prefix_refl _, hreports⟩
  | serves hreports => exact ⟨_, List.prefix_append _ _, hreports⟩

theorem Ticked.reassembler (h : s.Ticked E now out s') : s'.reassembler = (s.polled now).1 := by
  cases h with
  | rests _ _ hemits =>
    obtain ⟨_, _, _, rfl⟩ := hemits
    rfl
  | serves _ _ hupdated =>
    obtain ⟨_, _, _, rfl⟩ := hupdated.serves.advances
    rfl

theorem Ticked.length_le (hs : s.Configured) (h : s.Ticked E now out s') :
    out.length ≤ s.maxFramesPerTick := by
  have hcap := hs.cap
  have hreported {reports : List (RoutedDatagram A)}
      (hreports : List.Forall₂ (s.Reports E) (s.reported now) reports) :
      reports.length ≤ s.maxFramesPerTick := by
    rw [← hreports.length_eq, reported]
    exact (List.length_take_le _ _).trans (by omega)
  cases h with
  | rests hreports => exact hreported hreports
  | serves hreports _ hupdated =>
    rw [List.length_append]
    exact hupdated.within (hreported hreports)

theorem Running.reconcile_nil (h : s.Running config) (r : Readings)
    (hreported : (s.polled r.now).2.filter (s.hasRoute ·.peer) = []) (hrests : s.Rests 0) :
    ∃ s', reconcile E r s = .ok [] s' ∧ (s.polling r.now).Emits s' := by
  have hnone {reports : List (RoutedDatagram A)}
      (hreports : List.Forall₂ (s.Reports E) (s.reported r.now) reports) : reports = [] := by
    rw [reported, hreported, List.take_nil] at hreports
    exact List.forall₂_nil_left_iff.1 hreports
  have hfine (e : NodeError) (s' : SignedNode K V A) : ¬s.TickFails E r.now e s' := by
    intro hfails
    cases hfails with
    | report _ hpolled =>
      obtain ⟨request, hin, hroute, _⟩ := hpolled
      exact List.filter_eq_nil_iff.1 hreported request hin hroute
    | update hreports hn =>
      cases hnone hreports
      exact hn hrests
  obtain ⟨out, s', hok, hticked⟩ :=
    (yields_reconcile (E := E) h.configured h.nodup r).returns hfine
  cases hticked with
  | rests hreports _ hemits =>
    cases hnone hreports
    exact ⟨s', hok, hemits⟩
  | serves hreports hn =>
    cases hnone hreports
    exact absurd hrests hn

variable [DecidableEq A]

/-- Each transfer whose last request a tick advances has a report of its own among the datagrams. -/
def Answers (E : SignedSuite K V) (s s' : SignedNode K V A) (out : List (RoutedDatagram A)) : Prop :=
  ∃ requests reports, reports.Sublist out ∧ List.Forall₂ (s.Reports E) requests reports ∧
    ∀ peer id t t', s.reassembler.transfer peer id = some t →
      s'.reassembler.transfer peer id = some t' → t'.lastMissingRequest ≠ t.lastMissingRequest →
      ⟨peer, id, t'.missingRanges s.reportRanges⟩ ∈ requests

omit [LinearOrder K] [DecidableEq A] in
theorem Running.reported_eq (h : s.Running config)
    (hroutes : ∀ k ∈ s.requested now, s.hasRoute k.1 = true)
    (hcap : (s.requested now).length ≤ s.maxFramesPerTick) : s.reported now = (s.polled now).2 := by
  rw [← keys_polled h.accounted] at hroutes hcap
  rw [List.length_map] at hcap
  have hall : (s.polled now).2.filter (s.hasRoute ·.peer) = (s.polled now).2 :=
    List.filter_eq_self.2 fun request hin => hroutes _ (List.mem_map_of_mem hin)
  rw [reported, hall, List.take_of_length_le (hcap.trans (Nat.le_max_left _ _))]

/-- In every state a node reaches, a tick that returns answers for the requests it notes down exactly
when every transfer to be requested has a signer with a confirmed route, and they are no more than
the tick has frames. -/
theorem reconcile_reports_iff {s₀ : SignedNode K V A} {calls : List (NodeCall K V A)}
    (h₀ : new E config clusterKey signer clock readings loaded = .ok s₀)
    (hr : calls.foldl (step E) s₀ = s) (hok : reconcile E r s = .ok out s') :
    s.Answers E s' out ↔ (∀ k ∈ s.requested r.now, s.hasRoute k.1 = true) ∧
      (s.requested r.now).length ≤ s.maxFramesPerTick := by
  have hrunning : s.Running config := hr ▸ (running_new h₀).run calls
  have hticked := (yields_reconcile hrunning.configured hrunning.nodup r).ok hok
  constructor
  · rintro ⟨requests, reports, hsub, hreports, hall⟩
    have hasked : ∀ k ∈ s.requested r.now, ∃ request ∈ requests, request.key = k := by
      intro k hk
      obtain ⟨t, t', ht, ht', hne⟩ := advances_requested hrunning.accounted hk
      rw [← hticked.reassembler] at ht'
      exact ⟨_, hall k.1 k.2 t t' ht ht' hne, rfl⟩
    refine ⟨fun k hk => ?_, ?_⟩
    · obtain ⟨request, hin, rfl⟩ := hasked k hk
      obtain ⟨d, _, _, _, hroute, _⟩ := exists_mem_of_forall₂ hreports hin
      exact Option.isSome_iff_exists.2 ⟨_, hroute⟩
    · have hnodup : (s.requested r.now).Nodup := by
        unfold requested
        split
        · exact (Sorted.nodup_of_pairwise (Reassembler.idleCandidates_pairwise _ _ _ _)).sublist
            (List.take_sublist _ _)
        · exact List.nodup_nil
      have hle := (hnodup.subperm fun k hk => List.mem_map.2 (hasked k hk)).length_le
      rw [List.length_map, hreports.length_eq] at hle
      exact hle.trans (hsub.length_le.trans (hticked.length_le hrunning.configured))
  · rintro ⟨hroutes, hcap⟩
    obtain ⟨reports, hfront, hreports⟩ := hticked.front
    rw [hrunning.reported_eq hroutes hcap] at hreports
    refine ⟨_, reports, hfront.sublist, hreports, fun peer id t t' ht ht' hne => ?_⟩
    rw [hticked.reassembler] at ht'
    refine (transfer_polled ht').resolve_left fun hsame => ?_
    cases ht.symm.trans hsame
    exact hne rfl

open Boundary Ingress SignedCausal

omit [LinearOrder K] [DecidableEq A] in
theorem polled_single (hselective : s.framing.selectiveRecovery = true)
    (hranges : 0 < s.reportRanges)
    (hone : (s.reassembler.expire now).1.idleCandidates now 2000 3000 = [k])
    (ht : (s.reassembler.expire now).1.transfer k.1 k.2 = some t)
    (hmissing : t.missingRanges s.reportRanges ≠ []) :
    s.polled now = ((s.reassembler.expire now).1.put k.1 k.2 (t.requested now) 0,
      [⟨k.1, k.2, t.missingRanges s.reportRanges⟩]) := by
  rw [polled, if_pos hselective]
  change Reassembler.pollIdleMissing _ now 2000 3000 s.reportRanges 16 = _
  rw [Reassembler.pollIdleMissing_eq hranges (by decide), hone, Reassembler.pollLoop,
    if_neg (by decide)]
  simp only [ht, if_neg hmissing]
  rfl

def halfCall : SealCall := ⟨1000, Boundary.second_lt, zeros 24, fragmentFrame (zeros 32) 2 0 [5]⟩

def halving : List (NodeCall Nat Nat Nat) :=
  confirming ++ [.receive 7 (datagramOf (answering.advance answerCall) halfCall)
    (readingsAt 20 nines) 1000]

def lateTick : Readings := readingsAt 3020 nines

def Halfway (s : SignedNode K V A) : Prop :=
  s.framing.selectiveRecovery = true ∧ 0 < s.reportRanges ∧
  ((s.reassembler.expire 3020).1.held.filter fun t =>
    2000 ≤ 3020 - t.2.lastActivity && t.2.due 3020 3000).length = 1 ∧
  ((s.reassembler.expire 3020).1.transfer (zeros 32) (zeros 32)).any (fun t =>
    2000 ≤ 3020 - t.lastActivity && t.lastMissingRequest == none &&
      t.missingRanges s.reportRanges == [(1, 1)]) = true

instance instDecidableHalfway (s : SignedNode K V A) : Decidable s.Halfway :=
  inferInstanceAs (Decidable (_ ∧ _))

omit [LinearOrder K] [DecidableEq A] in
theorem Halfway.polled (h : s.Halfway) : ∃ t,
    s.reassembler.transfer (zeros 32) (zeros 32) = some t ∧ t.lastMissingRequest = none ∧
    t.missingRanges s.reportRanges = [(1, 1)] ∧
    (s.polled lateTick.now).2 = [⟨zeros 32, zeros 32, [(1, 1)]⟩] ∧
    (s.polled lateTick.now).1.transfer (zeros 32) (zeros 32) = some (t.requested lateTick.now) := by
  obtain ⟨hselective, hranges, hone, hany⟩ := h
  obtain ⟨t, ht, hidle⟩ := (Option.any_eq_true _ _).1 hany
  simp only [Bool.and_eq_true, decide_eq_true_eq, beq_iff_eq] at hidle
  obtain ⟨⟨hidle, hnone⟩, hmissing⟩ := hidle
  have hdue : t.due 3020 3000 = true := by rw [Transfer.due, hnone]
  rw [← Reassembler.length_idleCandidates] at hone
  obtain ⟨k, hk⟩ := List.length_eq_one_iff.1 hone
  have hin : (zeros 32, zeros 32) ∈ [k] :=
    hk ▸ Reassembler.mem_idleCandidates.2 ⟨t, ht, hidle, hdue⟩
  cases List.mem_singleton.1 hin
  have hp := polled_single hselective hranges hk ht (by rw [hmissing]; exact List.cons_ne_nil _ _)
  rw [hmissing] at hp
  rw [Reassembler.transfer_expire, Option.filter_eq_some_iff] at ht
  refine ⟨t, ht.1, hnone, hmissing, congrArg Prod.snd hp, ?_⟩
  change (s.polled 3020).1.transfer _ _ = _
  rw [hp, Reassembler.transfer_put, if_pos ⟨rfl, rfl⟩]
  rfl

theorem reconcile_reports_iff_halfway : ∃ out s',
    reconcile plainSuite lateTick (halving.foldl (step plainSuite) pair) = .ok out s' ∧
    (halving.foldl (step plainSuite) pair).requested lateTick.now = [(zeros 32, zeros 32)] ∧
    (halving.foldl (step plainSuite) pair).Answers plainSuite s' out := by
  generalize hs : halving.foldl (step plainSuite) pair = s
  have hrunning : s.Running pairConfig := hs ▸ (running_new new_pair).run halving
  have hhalf : s.Halfway := hs ▸ by decide +kernel
  have hroute : s.hasRoute (zeros 32) = true := hs ▸ by decide +kernel
  have hempty : s.entries.entries.isEmpty = true := hs ▸ by decide +kernel
  obtain ⟨_, _, _, _, hdue, _⟩ := hhalf.polled
  have hrequested : s.requested lateTick.now = [(zeros 32, zeros 32)] := by
    rw [← keys_polled hrunning.accounted, hdue]
    rfl
  have hfine (e : NodeError) (s' : SignedNode Nat Nat Nat) :
      ¬s.TickFails plainSuite lateTick.now e s' := by
    intro hfails
    cases hfails with
    | report _ hpolled =>
      obtain ⟨request, hin, hu⟩ := hpolled
      exact hrunning.reportable hin hu
    | update _ hn => exact hn (.inr (.inr (.inr hempty)))
  obtain ⟨out, s', hok, _⟩ :=
    (yields_reconcile hrunning.configured hrunning.nodup lateTick).returns hfine
  refine ⟨out, s', hok, hrequested, (reconcile_reports_iff new_pair hs hok).2 ?_⟩
  rw [hrequested]
  refine ⟨fun k hk => ?_, hrunning.configured.cap⟩
  rw [List.mem_singleton.1 hk]
  exact hroute

def deserted : List (NodeCall Nat Nat Nat) := halving ++ [.decommission (zeros 32)]

/-- Once the peer is decommissioned, the tick notes down a request for its transfer, and sends
none. -/
theorem reconcile_reports_retired :
    ∃ s s' t t', deserted.foldl (step plainSuite) pair = s ∧
      reconcile plainSuite lateTick s = .ok [] s' ∧
      s.reassembler.transfer (zeros 32) (zeros 32) = some t ∧ t.lastMissingRequest = none ∧
      s'.reassembler.transfer (zeros 32) (zeros 32) = some t' ∧
      t'.lastMissingRequest = some 3020 := by
  generalize hs : deserted.foldl (step plainSuite) pair = s
  have hrunning : s.Running pairConfig := hs ▸ (running_new new_pair).run deserted
  have hhalf : s.Halfway := hs ▸ by decide +kernel
  have hroute : s.hasRoute (zeros 32) = false := hs ▸ by decide +kernel
  have hempty : s.entries.entries.isEmpty = true := hs ▸ by decide +kernel
  obtain ⟨t, ht, hnone, _, hdue, hmarked⟩ := hhalf.polled
  have hquiet : (s.polled lateTick.now).2.filter (s.hasRoute ·.peer) = [] := by
    rw [hdue, List.filter_cons, if_neg (by rw [hroute]; exact Bool.false_ne_true), List.filter_nil]
  obtain ⟨s', hok, hemits⟩ := hrunning.reconcile_nil (E := plainSuite) lateTick hquiet
    (.inr (.inr (.inr hempty)))
  refine ⟨s, s', t, t.requested lateTick.now, rfl, hok, ht, hnone, ?_, rfl⟩
  obtain ⟨_, _, _, rfl⟩ := hemits
  exact hmarked

end SignedNode

end Reconcile
