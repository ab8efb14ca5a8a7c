import Reconcile.Framing.Accounting
import Reconcile.Lib.Sorted

namespace Reconcile
open Lib
set_option autoImplicit true

namespace Transfer

theorem missingLoop_ne_nil {ranges : List (Nat × Nat)}
    (h : ranges ≠ [] ∨ cursor + Pieces.size ps < total) :
    missingLoop total maxRanges cursor ps ranges ≠ [] := by
  induction ps generalizing cursor ranges with
  | nil =>
    rw [missingLoop]
    split
    · exact List.append_ne_nil_of_right_ne_nil _ (List.cons_ne_nil _ _)
    · next hc => exact h.resolve_right hc
  | cons p ps ih =>
    rw [missingLoop]
    split
    · split
      · exact List.append_ne_nil_of_right_ne_nil _ (List.cons_ne_nil _ _)
      · exact ih (.inl (List.append_ne_nil_of_right_ne_nil _ (List.cons_ne_nil _ _)))
    · next hc =>
      apply ih
      refine h.imp_right fun hlt => ?_
      rw [Pieces.size_cons] at hlt
      omega

theorem missingRanges_ne_nil (t : Transfer) (h : t.retainedBytes < t.totalLen)
    (hranges : 0 < maxRanges) : t.missingRanges maxRanges ≠ [] := by
  rw [missingRanges, if_neg hranges.ne']
  apply missingLoop_ne_nil
  rw [← t.retained_eq, Nat.zero_add]
  exact .inr h

theorem due_of_le {t : Transfer} (h : t.due now interval = true) (hle : now ≤ later) :
    t.due later interval = true := by
  unfold due at h ⊢
  cases hlast : t.lastMissingRequest with
  | none => rfl
  | some last =>
    simp only [hlast, decide_eq_true_eq] at h ⊢
    omega

theorem due_requested (t : Transfer) (h : now + interval ≤ later) :
    (t.requested now).due later interval = true := by
  simp only [due, requested, decide_eq_true_eq]
  omega

end Transfer

def MissingRequest.key (request : MissingRequest P) : P × TransferId :=
  (request.peer, request.transferId)

namespace Reassembler

variable {P : Type} [LinearOrder P] {r : Reassembler P} {k : P × TransferId}
  {now later minIdle interval maxRanges maxReports : Nat}

omit [LinearOrder P] in
theorem keys_held_nodup (r : Reassembler P) : (r.held.map Prod.fst).Nodup := by
  rw [held, List.map_flatMap, List.nodup_flatMap]
  constructor
  · intro s _
    rw [List.map_map]
    have hkeys := (HashMap.keys_toList_nodup s.2.transfers).map (Prod.mk_right_injective s.1)
    rwa [List.map_map] at hkeys
  · have hpeers := List.pairwise_map.1 (HashMap.keys_toList_nodup r.peers)
    apply hpeers.imp
    intro s s' hne k hk hk'
    simp only [List.map_map, List.mem_map, Function.comp_apply] at hk hk'
    obtain ⟨_, _, rfl⟩ := hk
    obtain ⟨_, _, he⟩ := hk'
    exact hne (congrArg Prod.fst he).symm

theorem idleCandidates_pairwise (r : Reassembler P) (now minIdle interval : Nat) :
    (r.idleCandidates now minIdle interval).Pairwise fun a b => toLex a < toLex b := by
  rw [idleCandidates, List.pairwise_map]
  apply Sorted.pairwise_lt_mergeSort (f := id)
  have hkeys (idle : (P × TransferId) × Transfer → Bool) :
      (((r.held.filter idle).map Prod.fst).map toLex).Nodup :=
    (r.keys_held_nodup.sublist (List.filter_sublist.map Prod.fst)).map toLex.injective
  simpa only [List.map_map, Function.comp_def, id] using hkeys _

theorem mem_idleCandidates : k ∈ r.idleCandidates now minIdle interval ↔
    ∃ t, r.transfer k.1 k.2 = some t ∧ minIdle ≤ now - t.lastActivity ∧
      t.due now interval = true := by
  simp only [idleCandidates, List.mem_map, List.mem_mergeSort, List.mem_filter, Bool.and_eq_true,
    decide_eq_true_eq]
  constructor
  · rintro ⟨_, ⟨⟨k', t⟩, ⟨ht, hidle⟩, rfl⟩, rfl⟩
    exact ⟨t, (mem_held r k' t).1 ht, hidle⟩
  · rintro ⟨t, ht, hidle⟩
    exact ⟨toLex k, ⟨(k, t), ⟨(mem_held r k t).2 ht, hidle⟩, rfl⟩, rfl⟩

theorem length_idleCandidates (r : Reassembler P) (now minIdle interval : Nat) :
    (r.idleCandidates now minIdle interval).length = (r.held.filter fun t =>
      minIdle ≤ now - t.2.lastActivity && t.2.due now interval).length := by
  rw [idleCandidates, List.length_map, List.length_mergeSort, List.length_map]

theorem pollLoop_reports {candidates : List (P × TransferId)} {reports : List (MissingRequest P)}
    (h : ∀ k ∈ candidates, ∃ t, r.transfer k.1 k.2 = some t ∧ t.missingRanges maxRanges ≠ []) :
    (pollLoop now maxRanges maxReports candidates r reports).2.map MissingRequest.key =
      reports.map MissingRequest.key ++ candidates.take (maxReports - reports.length) := by
  induction candidates generalizing r reports with
  | nil => rw [pollLoop, List.take_nil, List.append_nil]
  | cons k candidates ih =>
    rw [pollLoop]
    split
    · next hfull => rw [Nat.sub_eq_zero_of_le hfull, List.take_zero, List.append_nil]
    next hroom =>
    obtain ⟨t, ht, hne⟩ := h k List.mem_cons_self
    have hleft : maxReports - reports.length = maxReports - (reports.length + 1) + 1 := by omega
    simp only [ht, if_neg hne]
    rw [ih, List.map_append, List.length_append, List.length_singleton, hleft, List.take_succ_cons,
      List.append_assoc]
    · rfl
    · intro k' hk'
      obtain ⟨t', ht', hne'⟩ := h k' (List.mem_cons_of_mem _ hk')
      rw [transfer_put]
      split
      · exact ⟨_, rfl, hne⟩
      · exact ⟨t', ht', hne'⟩

theorem pollLoop_cons (now maxRanges maxReports : Nat) (k₀ : P × TransferId)
    (candidates : List (P × TransferId)) (r : Reassembler P) (reports : List (MissingRequest P)) :
    pollLoop now maxRanges maxReports (k₀ :: candidates) r reports = (r, reports) ∨
    pollLoop now maxRanges maxReports (k₀ :: candidates) r reports =
      pollLoop now maxRanges maxReports candidates r reports ∨
    ∃ t, r.transfer k₀.1 k₀.2 = some t ∧
      pollLoop now maxRanges maxReports (k₀ :: candidates) r reports =
        pollLoop now maxRanges maxReports candidates (r.put k₀.1 k₀.2 (t.requested now) 0)
          (reports ++ [⟨k₀.1, k₀.2, t.missingRanges maxRanges⟩]) := by
  rw [pollLoop]
  split
  · exact .inl rfl
  split
  · exact .inr (.inl rfl)
  next t ht =>
  split
  · exact .inr (.inl rfl)
  · exact .inr (.inr ⟨t, ht, rfl⟩)

theorem transfer_pollLoop (now maxRanges maxReports : Nat) (candidates : List (P × TransferId))
    (r : Reassembler P) (reports : List (MissingRequest P)) {t : Transfer}
    (ht : r.transfer k.1 k.2 = some t) :
    ∃ t', (pollLoop now maxRanges maxReports candidates r reports).1.transfer k.1 k.2 = some t' ∧
      (t' = t ∨ t' = t.requested now) := by
  induction candidates generalizing r reports t with
  | nil => exact ⟨t, ht, .inl rfl⟩
  | cons k₀ candidates ih =>
    rcases pollLoop_cons now maxRanges maxReports k₀ candidates r reports with
      h | h | ⟨t₀, ht₀, h⟩ <;> rw [h]
    · exact ⟨t, ht, .inl rfl⟩
    · exact ih r reports ht
    have hput := transfer_put r k₀.1 k.1 k₀.2 k.2 (t₀.requested now) 0
    split at hput
    · next hk =>
      rw [hk.1, hk.2, ht₀] at ht
      cases ht
      obtain ⟨t', ht', he⟩ := ih _ (reports ++ [⟨k₀.1, k₀.2, t.missingRanges maxRanges⟩]) hput
      exact ⟨t', ht', he.elim .inr .inr⟩
    · exact ih _ _ (hput.trans ht)

theorem mem_pollLoop (now maxRanges maxReports : Nat) (candidates : List (P × TransferId))
    (r : Reassembler P) {reports : List (MissingRequest P)} {request : MissingRequest P}
    (hin : request ∈ reports) :
    request ∈ (pollLoop now maxRanges maxReports candidates r reports).2 := by
  induction candidates generalizing r reports with
  | nil => exact hin
  | cons k₀ candidates ih =>
    rcases pollLoop_cons now maxRanges maxReports k₀ candidates r reports with
      h | h | ⟨t, ht, h⟩ <;> rw [h]
    · exact hin
    · exact ih r hin
    · exact ih _ (List.mem_append_left _ hin)

theorem transfer_pollLoop_of_not_mem {candidates : List (P × TransferId)}
    {reports : List (MissingRequest P)}
    (hk : k ∉ (pollLoop now maxRanges maxReports candidates r reports).2.map MissingRequest.key) :
    (pollLoop now maxRanges maxReports candidates r reports).1.transfer k.1 k.2 =
      r.transfer k.1 k.2 := by
  induction candidates generalizing r reports with
  | nil => rfl
  | cons k₀ candidates ih =>
    rcases pollLoop_cons now maxRanges maxReports k₀ candidates r reports with
      h | h | ⟨t, ht, h⟩ <;> rw [h] at hk ⊢
    · exact ih hk
    · rw [ih hk, transfer_put, if_neg]
      rintro ⟨hp, hi⟩
      apply hk
      exact List.mem_map.2 ⟨_, mem_pollLoop now maxRanges maxReports candidates _
        (List.mem_append_right _ List.mem_cons_self), Prod.ext hp.symm hi.symm⟩

/-- Every request of a poll is for what its transfer still lacks, and the time is noted there. -/
theorem pollLoop_marks {candidates : List (P × TransferId)} {reports : List (MissingRequest P)}
    {request : MissingRequest P}
    (hin : request ∈ (pollLoop now maxRanges maxReports candidates r reports).2) :
    request ∈ reports ∨ ∃ t,
      (pollLoop now maxRanges maxReports candidates r reports).1.transfer request.peer
        request.transferId = some t ∧
      t.lastMissingRequest = some now ∧ request.ranges = t.missingRanges maxRanges := by
  induction candidates generalizing r reports with
  | nil => exact .inl hin
  | cons k₀ candidates ih =>
    rcases pollLoop_cons now maxRanges maxReports k₀ candidates r reports with
      h | h | ⟨t, ht, h⟩ <;> rw [h] at hin ⊢
    · exact .inl hin
    · exact ih hin
    rcases ih hin with hin | hmarked
    · rcases List.mem_append.1 hin with hin | hin
      · exact .inl hin
      cases List.mem_singleton.1 hin
      have hput : (r.put k₀.1 k₀.2 (t.requested now) 0).transfer k₀.1 k₀.2 =
          some (t.requested now) := by
        rw [transfer_put, if_pos ⟨rfl, rfl⟩]
      obtain ⟨t', ht', he⟩ := transfer_pollLoop now maxRanges maxReports candidates _
        (reports ++ [⟨k₀.1, k₀.2, t.missingRanges maxRanges⟩]) hput
      refine .inr ⟨t', ht', ?_⟩
      rcases he with rfl | rfl <;> exact ⟨rfl, rfl⟩
    · exact .inr hmarked

theorem pollIdleMissing_eq (hranges : 0 < maxRanges) (hreports : 0 < maxReports) :
    r.pollIdleMissing now minIdle interval maxRanges maxReports =
      pollLoop now maxRanges maxReports (r.idleCandidates now minIdle interval) r [] := by
  rw [pollIdleMissing, if_neg hranges.ne', if_neg hreports.ne']

theorem Accounted.pollIdleMissing_reports (h : r.Accounted) (hranges : 0 < maxRanges)
    (hreports : 0 < maxReports) :
    (r.pollIdleMissing now minIdle interval maxRanges maxReports).2.map MissingRequest.key =
      (r.idleCandidates now minIdle interval).take maxReports := by
  rw [pollIdleMissing_eq hranges hreports, pollLoop_reports]
  · rfl
  · intro k hk
    obtain ⟨t, ht, _⟩ := mem_idleCandidates.1 hk
    exact ⟨t, ht, t.missingRanges_ne_nil (h.unfinished _ _ _ ht).bytes hranges⟩

theorem mem_idleCandidates_polled (hranges : 0 < maxRanges) (hreports : 0 < maxReports)
    (hk : k ∈ r.idleCandidates now minIdle interval) (hlater : now + interval ≤ later) :
    k ∈ (r.pollIdleMissing now minIdle interval maxRanges maxReports).1.idleCandidates later
      minIdle interval := by
  obtain ⟨t, ht, hidle, hdue⟩ := mem_idleCandidates.1 hk
  rw [pollIdleMissing_eq hranges hreports, mem_idleCandidates]
  obtain ⟨t', ht', he⟩ := transfer_pollLoop now maxRanges maxReports
    (r.idleCandidates now minIdle interval) r [] ht
  have hactive : t'.lastActivity = t.lastActivity := by
    rcases he with rfl | rfl <;> rfl
  refine ⟨t', ht', by omega, ?_⟩
  rcases he with rfl | rfl
  · exact Transfer.due_of_le hdue (by omega)
  · exact t.due_requested hlater

theorem Accounted.idleCandidates_polled (h : r.Accounted) (hranges : 0 < maxRanges)
    (hreports : 0 < maxReports) (hlater : now + interval ≤ later) :
    (r.pollIdleMissing now minIdle interval maxRanges maxReports).1.idleCandidates later minIdle
      interval = r.idleCandidates later minIdle interval := by
  apply Sorted.eq_of_mem_iff (idleCandidates_pairwise _ _ _ _) (r.idleCandidates_pairwise _ _ _)
  intro k
  by_cases hk : k ∈ r.idleCandidates now minIdle interval
  · have hpolled : k ∈ (r.pollIdleMissing now minIdle interval maxRanges maxReports).1.idleCandidates
        later minIdle interval := mem_idleCandidates_polled hranges hreports hk hlater
    obtain ⟨t, ht, hidle, hdue⟩ := mem_idleCandidates.1 hk
    have hin := mem_idleCandidates.2 ⟨t, ht, (by omega : minIdle ≤ later - t.lastActivity),
      Transfer.due_of_le hdue (by omega)⟩
    exact ⟨fun _ => hin, fun _ => hpolled⟩
  · -- what is not reported keeps its transfer
    have hkept : (r.pollIdleMissing now minIdle interval maxRanges maxReports).1.transfer k.1 k.2 =
        r.transfer k.1 k.2 := by
      rw [pollIdleMissing_eq hranges hreports]
      apply transfer_pollLoop_of_not_mem
      rw [← pollIdleMissing_eq hranges hreports, h.pollIdleMissing_reports hranges hreports]
      exact fun hin => hk (List.mem_of_mem_take hin)
    rw [mem_idleCandidates, mem_idleCandidates, hkept]

def polls (minIdle interval maxRanges maxReports : Nat) :
    List Nat → Reassembler P → List (MissingRequest P)
  | [], _ => []
  | now :: times, r =>
    (r.pollIdleMissing now minIdle interval maxRanges maxReports).2 ++
      polls minIdle interval maxRanges maxReports times
        (r.pollIdleMissing now minIdle interval maxRanges maxReports).1

theorem pairwise_of_spaced {times : List Nat} (h : times.IsChain fun a b => a + interval ≤ b) :
    times.Pairwise fun a b => a + interval ≤ b := by
  have htrans : IsTrans Nat fun a b => a + interval ≤ b := ⟨fun a b c hab hbc => by omega⟩
  exact h.pairwise

/-- Polls an interval apart each report the first of the candidates that the reassembler would have
had at their time without the polls before. -/
theorem Accounted.polls_reports (h : r.Accounted) (hranges : 0 < maxRanges)
    (hreports : 0 < maxReports) (hspaced : times.Pairwise fun a b => a + interval ≤ b) :
    (polls minIdle interval maxRanges maxReports times r).map MissingRequest.key =
      times.flatMap fun now => (r.idleCandidates now minIdle interval).take maxReports := by
  induction times generalizing r with
  | nil => rfl
  | cons now times ih =>
    obtain ⟨hfirst, hspaced⟩ := List.pairwise_cons.1 hspaced
    have hpolled := h.pollIdleMissing now minIdle interval maxRanges maxReports
    rw [polls, List.map_append, h.pollIdleMissing_reports hranges hreports, ih hpolled hspaced,
      List.flatMap_cons]
    congr 1
    refine List.flatMap_congr fun later hl => ?_
    rw [h.idleCandidates_polled hranges hreports (hfirst later hl)]

/-- The transfers that have been idle for long enough, whether or not a request is due. -/
def idleTransfers (r : Reassembler P) (now minIdle : Nat) : List (P × TransferId) :=
  r.idleCandidates now minIdle 0

theorem mem_idleTransfers : k ∈ r.idleTransfers now minIdle ↔
    ∃ t, r.transfer k.1 k.2 = some t ∧ minIdle ≤ now - t.lastActivity := by
  have hdue (t : Transfer) : t.due now 0 = true := by
    unfold Transfer.due
    split <;> simp
  simp only [idleTransfers, mem_idleCandidates, hdue, and_true]

def Past (r : Reassembler P) (now : Nat) : Prop :=
  ∀ p i t last, r.transfer p i = some t → t.lastMissingRequest = some last → last ≤ now

/-- An interval later, a request is due for whatever is idle. -/
theorem Past.idleCandidates_eq (h : r.Past now) (hlater : now + interval ≤ later) :
    r.idleCandidates later minIdle interval = r.idleTransfers later minIdle := by
  apply Sorted.eq_of_mem_iff (r.idleCandidates_pairwise _ _ _) (r.idleCandidates_pairwise _ _ _)
  intro k
  rw [mem_idleCandidates, ← idleTransfers, mem_idleTransfers]
  refine exists_congr fun t => and_congr_right fun ht => and_iff_left ?_
  cases hlast : t.lastMissingRequest with
  | none => rw [Transfer.due, hlast]
  | some last =>
    have hle := h _ _ t last ht hlast
    simp only [Transfer.due, hlast, decide_eq_true_eq]
    omega

theorem Past.put (h : r.Past now) (peer : P) (id : TransferId) (t : Transfer) (added : Nat)
    (ht : ∀ last, t.lastMissingRequest = some last → last ≤ now) : (r.put peer id t added).Past now := by
  intro p i t' last ht' hlast
  rw [transfer_put] at ht'
  split at ht'
  · cases ht'
    exact ht last hlast
  · exact h p i t' last ht' hlast

theorem Past.expire (h : r.Past now) (time : Nat) : (r.expire time).1.Past now := by
  intro p i t last ht hlast
  rw [transfer_expire, Option.filter_eq_some_iff] at ht
  exact h p i t last ht.1 hlast

theorem Past.handled {hash : Bytes → TransferId} {f : FragmentInput} (h : r.Past now)
    (hout : Handled hash r peer f time out) : out.1.Past now := by
  cases hout with
  | refused hf e => exact fun p i t last ht hlast => h p i t last (hf.transfer_sub ht) hlast
  | duplicate ht hm => exact h.put _ _ _ _ fun last hlast => h _ _ _ last ht hlast
  | @stored n s t hf ht hlen hfits ha =>
    intro p i t' last ht' hlast
    rw [transfer_store] at ht'
    split at ht'
    · split at ht'
      · cases ht'
      · cases ht'
        -- the fragment goes into the transfer held, or into a new one without a request
        cases hheld : r.transfer peer f.id with
        | none =>
          rw [hheld, Option.getD_none] at ht
          subst ht
          cases hlast
        | some t₀ =>
          rw [hheld, Option.getD_some] at ht
          subst ht
          exact h _ _ _ last hheld hlast
    · exact h p i t' last (hf.transfer_sub ht') hlast

theorem Past.pollLoop (h : r.Past now) (htime : time ≤ now) (candidates : List (P × TransferId))
    (reports : List (MissingRequest P)) :
    (Reassembler.pollLoop time maxRanges maxReports candidates r reports).1.Past now := by
  induction candidates generalizing r reports with
  | nil => exact h
  | cons k₀ candidates ih =>
    rcases pollLoop_cons time maxRanges maxReports k₀ candidates r reports with
      he | he | ⟨t, _, he⟩ <;> rw [he]
    · exact h
    · exact ih h reports
    · refine ih (h.put _ _ _ _ fun last hlast => ?_) _
      cases hlast
      exact htime

theorem Past.step {hash : Bytes → TransferId} (h : r.Past now) {e : ReassemblyEvent P}
    (he : e.time ≤ now) : (r.step hash e).Past now := by
  cases e with
  | accept peer bytes time =>
    change (r.accept hash peer bytes time).1.Past now
    rw [accept_state]
    cases fragmentInput bytes with
    | none => exact h.expire time
    | some f => exact (h.expire time).handled (acceptFragment_handled hash _ peer f time)
  | expire time => exact h.expire time
  | missing peer id time interval maxRanges =>
    change (r.missingRangesIfDue peer id time interval maxRanges).1.Past now
    unfold missingRangesIfDue
    split
    · exact h
    split
    · exact h
    split
    · split
      · exact h
      · refine h.put _ _ _ _ fun last hlast => ?_
        cases hlast
        exact he
    · exact h
  | poll time minIdle interval maxRanges maxReports =>
    change (r.pollIdleMissing time minIdle interval maxRanges maxReports).1.Past now
    unfold pollIdleMissing
    split
    · exact h
    split
    · exact h
    · exact h.pollLoop he _ _

theorem past_run (hash : Bytes → TransferId) (limits : ReassemblyLimits)
    {events : List (ReassemblyEvent P)} (hevents : ∀ e ∈ events, e.time ≤ now) :
    ((forIdentity limits : Reassembler P).run hash events).Past now :=
  List.foldlRecOn (motive := fun r => Past r now) events _ nofun
    fun _ h e he => h.step (hevents e he)

/-- However often an interval apart it is polled, a reassembler asks for every transfer that was idle
at the first poll exactly when each of them is among the first of those due then, or, if it is
polled again, among the first of those idle at the second poll. -/
theorem idle_requests_cover_iff (hash : Bytes → TransferId) (limits : ReassemblyLimits)
    (events : List (ReassemblyEvent P)) (now : Nat) (times : List Nat)
    (minIdle interval maxRanges maxReports : Nat) (hevents : ∀ e ∈ events, e.time ≤ now)
    (hranges : 0 < maxRanges) (hreports : 0 < maxReports)
    (hspaced : (now :: times).IsChain fun a b => a + interval ≤ b) :
    let r := (forIdentity limits : Reassembler P).run hash events
    (∀ k ∈ r.idleTransfers now minIdle,
      ∃ request ∈ polls minIdle interval maxRanges maxReports (now :: times) r, request.key = k) ↔
    ∀ k ∈ r.idleTransfers now minIdle,
      k ∈ (r.idleCandidates now minIdle interval).take maxReports ∨
        ∃ later ∈ times.head?, k ∈ (r.idleTransfers later minIdle).take maxReports := by
  intro r
  have h : r.Accounted := (accounted_forIdentity limits).run events
  have hpast : r.Past now := past_run hash limits hevents
  have hpairwise := pairwise_of_spaced hspaced
  obtain ⟨hfirst, hrest⟩ := List.pairwise_cons.1 hpairwise
  refine forall₂_congr fun k hk => ?_
  rw [← List.mem_map, h.polls_reports hranges hreports hpairwise, List.flatMap_cons,
    List.mem_append, List.mem_flatMap]
  refine or_congr_right ⟨?_, ?_⟩
  · rintro ⟨later, hl, hin⟩
    rw [hpast.idleCandidates_eq (hfirst later hl)] at hin
    cases times with
    | nil => cases hl
    | cons second times =>
      refine ⟨second, rfl, ?_⟩
      rcases List.mem_cons.1 hl with rfl | hl
      · exact hin
      · -- whatever was idle at the second poll still is
        have hlater := (List.pairwise_cons.1 hrest).1 later hl
        have hsecond := hfirst second List.mem_cons_self
        have hgrows {a b : Nat} (hab : a ≤ b) :
            r.idleTransfers a minIdle ⊆ r.idleTransfers b minIdle := by
          intro k hk
          obtain ⟨t, ht, hidle⟩ := mem_idleTransfers.1 hk
          exact mem_idleTransfers.2 ⟨t, ht, by omega⟩
        exact Sorted.mem_take_of_subset (r.idleCandidates_pairwise _ _ _)
          (r.idleCandidates_pairwise _ _ _) (hgrows (by omega)) (hgrows (by omega) hk) hin
  · rintro ⟨later, hl, hin⟩
    have hmem := List.mem_of_mem_head? hl
    rw [← hpast.idleCandidates_eq (hfirst later hmem)] at hin
    exact ⟨later, hmem, hin⟩

/-- Two peers that each sent the first byte of a message of two, and nothing more. -/
def twoIdle (hash : Bytes → TransferId) : List (ReassemblyEvent Nat) :=
  [.accept 1 (fragmentFrame (hash []) 2 0 [5]) 0, .accept 2 (fragmentFrame (hash []) 2 0 [5]) 0]

theorem time_twoIdle {hash : Bytes → TransferId} : ∀ e ∈ twoIdle hash, e.time ≤ now := by
  intro e he
  rcases List.mem_pair.1 he with rfl | rfl <;> exact Nat.zero_le now

theorem idle_requests_cover_iff_two :
    let hash : Bytes → TransferId := fun _ => ⟨List.replicate 32 0, List.length_replicate⟩
    let r := (forIdentity ⟨2, 2, 1, 2, 4, 100⟩ : Reassembler Nat).run hash (twoIdle hash)
    (r.idleTransfers 10 3).length = 2 ∧
      ∀ k ∈ r.idleTransfers 10 3, ∃ request ∈ polls 3 3 1 2 [10] r, request.key = k := by
  intro hash r
  have htwo : (r.idleTransfers 10 3).length = 2 := by
    rw [idleTransfers, length_idleCandidates]
    decide +kernel
  have hpast : r.Past 0 := past_run hash _ time_twoIdle
  have hdue : r.idleCandidates 10 3 3 = r.idleTransfers 10 3 :=
    hpast.idleCandidates_eq (by decide)
  refine ⟨htwo, (idle_requests_cover_iff hash _ (twoIdle hash) 10 [] 3 3 1 2 time_twoIdle
    Nat.one_pos Nat.two_pos (.singleton 10)).2 fun k hk => .inl ?_⟩
  rwa [hdue, List.take_of_length_le htwo.le]

/-- With room for one request, two polls ask the first peer twice and the second one never. -/
theorem idle_requests_starve :
    let hash : Bytes → TransferId := fun _ => ⟨List.replicate 32 0, List.length_replicate⟩
    let r := (forIdentity ⟨2, 2, 1, 2, 4, 100⟩ : Reassembler Nat).run hash (twoIdle hash)
    (r.idleTransfers 10 3).length = 2 ∧ (2, hash []) ∈ r.idleTransfers 10 3 ∧
      ∀ request ∈ polls 3 3 1 1 [10, 20] r, request.key ≠ (2, hash []) := by
  intro hash r
  have hidle (now peer : Nat) (h : (r.transfer peer (hash [])).any (fun t =>
      3 ≤ now - t.lastActivity) = true) : (peer, hash []) ∈ r.idleTransfers now 3 := by
    obtain ⟨t, ht, hd⟩ := (Option.any_eq_true _ _).1 h
    exact mem_idleTransfers.2 ⟨t, ht, of_decide_eq_true hd⟩
  -- The first peer is below the second, so the second is not the first candidate.
  have hbehind {now : Nat} (hnow : 3 ≤ now) (hone : (1, hash []) ∈ r.idleTransfers now 3)
      (htwo : (2, hash []) ∈ r.idleTransfers now 3) :
      (2, hash []) ∉ (r.idleCandidates now 3 3).take 1 := by
    have hpast : r.Past 0 := past_run hash _ time_twoIdle
    have hdue : r.idleCandidates now 3 3 = r.idleTransfers now 3 :=
      hpast.idleCandidates_eq (by omega)
    have hsorted := r.idleCandidates_pairwise now 3 3
    rw [← hdue] at hone htwo
    rw [Sorted.mem_take_iff hsorted htwo, Nat.lt_one_iff, List.length_eq_zero_iff]
    intro hnone
    exact List.filter_eq_nil_iff.1 hnone (1, hash []) hone (by decide +kernel)
  have htwo := hidle 10 2 (by decide +kernel)
  refine ⟨?_, htwo, ?_⟩
  · rw [idleTransfers, length_idleCandidates]
    decide +kernel
  · intro request hreq hkey
    have h : r.Accounted := (accounted_forIdentity _).run (twoIdle hash)
    have hin := List.mem_map_of_mem (f := MissingRequest.key) hreq
    rw [h.polls_reports Nat.one_pos Nat.one_pos (by decide), hkey, List.flatMap_cons,
      List.flatMap_cons, List.flatMap_nil, List.append_nil, List.mem_append] at hin
    rcases hin with hin | hin
    · exact hbehind (by decide) (hidle 10 1 (by decide +kernel)) htwo hin
    · exact hbehind (by decide) (hidle 20 1 (by decide +kernel)) (hidle 20 2 (by decide +kernel)) hin

end Reassembler

end Reconcile
