import Mathlib.Data.List.TakeWhile
import Reconcile.SignedNode.Coverage

namespace Reconcile
open Lib Lib.Action
set_option autoImplicit true

namespace SignedNode

variable {K V A : Type} [LinearOrder K] [DecidableEq A] {E : SignedSuite K V}
  {s s' : SignedNode K V A}

theorem stored_step (s : SignedNode K V A) (call : NodeCall K V A)
    (he : (s.step E call).entries.lookup k = some e) :
    s.entries.lookup k = some e ∨ s.ensureEntryFits E k e = .ok () ∨
      ∃ source datagram r pt peer, call = .receive source datagram r pt ∧
        s.authorities.contains peer = true ∧
        s.delivered E source datagram r = some (peer, .update k e) := by
  obtain ⟨ev, hcauses, hinner⟩ := s.inner_step (E := E) call
  rw [(Prod.mk.inj hinner).1] at he
  cases hcauses with
  | write w pt =>
    rw [SignedCausal.step] at he
    rcases s.toSignedCausal.write_cases w pt with ⟨err, hw⟩ | ⟨err, hw⟩ | ⟨hfits, hw⟩ <;>
      rw [hw] at he
    · exact .inl he
    · exact .inl he
    rw [SignedReplica.entries_recordEntry, HashMap.lookup_insert_eq] at he
    split at he
    · next hk =>
      cases he
      rw [hk]
      exact .inr (.inl hfits)
    · exact .inl he
  | decommission peer =>
    rw [SignedCausal.step, s.entries_decommission peer] at he
    exact .inl he
  | collect key => exact .inl he
  | @message source datagram r peer message pt hd =>
    rcases s.toSignedReplica.entries_handleVerifiedMessage E.rsos peer message with
      hsame | ⟨key, entry, rfl, hauthority, hstored⟩
    · exact .inl (hsame ▸ he)
    · change (s.toSignedReplica.handleVerifiedMessage E.rsos peer _).2.entries.lookup k = _ at he
      rw [hstored, HashMap.lookup_insert_eq] at he
      split at he
      · next hk =>
        cases he
        subst hk
        rcases s.toSignedReplica.mergedEntry_eq_or (R := E.rsos) k entry with hm | hm
        · exact .inl hm
        · rw [hm]
          exact .inr (.inr ⟨source, datagram, r, pt, peer, rfl, hauthority, hd⟩)
      · exact .inl he
  | quiet => exact .inl he
  | snapshot => exact .inl he

theorem ensureEntryFits_run (s : SignedNode K V A) (calls : List (NodeCall K V A)) :
    (calls.foldl (step E) s).ensureEntryFits E = s.ensureEntryFits E := by
  induction calls generalizing s with
  | nil => rfl
  | cons call calls ih =>
    obtain ⟨_, _, hinner⟩ := s.inner_step (E := E) call
    exact (ih _).trans (ensureEntryFits_congr (Prod.mk.inj hinner).2)

omit [LinearOrder K] in
/-- The update, if any, that a call's datagram completes for an authority fits. -/
def FitsReceived (E : SignedSuite K V) (s : SignedNode K V A) : NodeCall K V A → Prop
  | .receive source datagram r _ => ∀ peer k e, s.authorities.contains peer = true →
    s.delivered E source datagram r = some (peer, .update k e) → s.ensureEntryFits E k e = .ok ()
  | _ => True

theorem fits_run (h : ∀ k e, s.entries.lookup k = some e → s.ensureEntryFits E k e = .ok ())
    (hreceived : EachCall E (FitsReceived E) s calls) :
    ∀ k e, (calls.foldl (step E) s).entries.lookup k = some e →
      s.ensureEntryFits E k e = .ok () := by
  induction calls using List.reverseRecOn with
  | nil => exact h
  | append_singleton calls call ih =>
    intro k e he
    have hlast := hreceived.last
    rw [List.foldl_append] at he
    rcases stored_step _ call he with hold | hfits | ⟨_, _, _, _, peer, rfl, hauthority, hd⟩
    · exact ih hreceived.init k e hold
    · rwa [ensureEntryFits_run] at hfits
    · have hfits := hlast peer k e hauthority hd
      rwa [ensureEntryFits_run] at hfits

/-- In every state that a node reaches, what it retains fits and no tick fails for its size, if
everything in the snapshot it loaded fits and so do the updates it takes from the authorities; nor
does a tick fail at all, unless some frame of an entry is too long for its envelope. -/
theorem retained_fits {s₀ : SignedNode K V A} {calls : List (NodeCall K V A)}
    (h₀ : new E config clusterKey signer clock readings loaded = .ok s₀)
    (hr : calls.foldl (step E) s₀ = s)
    (hloaded : ∀ saved, loaded = .ok (some saved) → ∀ ke ∈ saved.entries,
      s₀.ensureEntryFits E ke.1 ke.2 = .ok ())
    (hreceived : EachCall E (FitsReceived E) s₀ calls) :
    (∀ k e, s.entries.lookup k = some e → s.ensureEntryFits E k e = .ok ()) ∧
      (∀ r e s', reconcile E r s = .error e s' → e.isReplica = false) ∧
      ((∀ k e, s.entries.lookup k = some e → ∀ frame ∈ s.frames E (E.serialize (.update k e)),
        ¬s.Overlong frame) → ∀ r, ∃ out s', reconcile E r s = .ok out s') := by
  have hnew : ∀ k e, s₀.entries.lookup k = some e → s₀.ensureEntryFits E k e = .ok () := by
    intro k e he
    obtain ⟨_, _, _, stored, causal, _, _, _, rfl, hrestore, rfl⟩ := new_eq_ok.1 h₀
    obtain ⟨saved, rfl, hin⟩ := SignedCausal.restore_entries hrestore he
    exact hloaded saved rfl (k, e) hin
  have hfits : ∀ k e, s.entries.lookup k = some e → s.ensureEntryFits E k e = .ok () := by
    subst hr
    rw [ensureEntryFits_run]
    exact fits_run hnew hreceived
  have hrunning : s.Running config := hr ▸ (running_new h₀).run calls
  have hyields (r : Readings) := yields_reconcile (E := E) hrunning.configured hrunning.nodup r
  refine ⟨hfits, fun r e s' herr => ?_, fun hframes r => ?_⟩
  · obtain ⟨_, hinterrupted⟩ := hrunning.interrupted ((hyields r).error herr)
    obtain ⟨peer, next, _, hnext, hfails⟩ := hinterrupted.failed
    rcases hfails with ⟨err, herr, _⟩ | ⟨he, _⟩
    · obtain ⟨n, hn⟩ := requiredFragments_of_fits (hfits next.1 next.2 (next_of_nextEntry hnext).1)
      cases hn.symm.trans herr
    · exact he
  · obtain ⟨out, s', hok, _⟩ := (hyields r).returns fun _ _ =>
      hrunning.not_tickFails fun k e hk => ⟨hfits k e hk, hframes k e hk⟩
    exact ⟨out, s', hok⟩

section Reloaded

open Boundary Ingress SignedCausal

theorem new_reloaded : new plainSuite pairConfig (zeros 32) nines { nodeId := 1 } (fun _ => 0)
    (.ok (some savedPair)) = .ok (reloaded pairConfig mirror) := rfl

def updating : List (NodeCall Nat Nat Nat) :=
  confirming ++ [.receive 7 updateDatagram (readingsAt 20 nines) 1000]

theorem retained_fits_reloaded :
    ∃ s, updating.foldl (step plainSuite) (reloaded pairConfig mirror) = s ∧
    (s.entries.lookup 1).isSome = true ∧
    (∀ k e, s.entries.lookup k = some e → s.ensureEntryFits plainSuite k e = .ok ()) ∧
    ∀ r, ∃ out s', reconcile plainSuite r s = .ok out s' := by
  have hsize : (reloaded pairConfig mirror).requiredFragments 1 = .ok 1 := by decide +kernel
  generalize hs : updating.foldl (step plainSuite) (reloaded pairConfig mirror) = s
  have hentry : (s.entries.lookup 1).isSome = true := hs ▸ by decide +kernel
  have hrunning : s.Running pairConfig := hs ▸ (running_new new_reloaded).run updating
  have hmtu : s.boundary.mtu < 2 ^ 32 := by
    rw [hrunning.mtu]
    decide
  have hreceived : EachCall plainSuite (FitsReceived plainSuite) (reloaded pairConfig mirror)
      updating := by
    intro before call _
    cases call with
    | receive =>
      intro _ k e _ _
      rw [ensureEntryFits_run]
      exact fits_plain hsize k e
    | _ => trivial
  obtain ⟨hfits, _, hreturns⟩ := retained_fits new_reloaded hs
    (fun _ _ ke _ => fits_plain hsize ke.1 ke.2) hreceived
  exact ⟨s, rfl, hentry, hfits, hreturns fun k e hk =>
    (deliverable_of_fits hrunning.configured hmtu (hfits k e hk)).2⟩

end Reloaded

section Tight

open Boundary Ingress SignedCausal

def wideSuite : SignedSuite Nat Nat :=
  { plainSuite with
    serialize := fun m => match m with
      | .update _ _ => [5, 5, 5]
      | _ => [0] }

def tightConfig : SignedConfig :=
  { pairConfig with framing := { datagramPayloadBudget := 300, maxLogicalMessageSize := 2 } }

theorem new_tight : new wideSuite tightConfig (zeros 32) nines { nodeId := 1 } (fun _ => 0)
    (.ok (some savedPair)) = .ok (reloaded tightConfig mirror) := rfl

theorem not_deliverable_wide {s : SignedNode Nat Nat Nat}
    (hbig : s.requiredFragments 3 = .error .recordTooLong) (k : Nat) (e : Entry Timestamp Nat) :
    ¬s.Deliverable wideSuite k e := by
  rintro ⟨hfits, _⟩
  change (s.requiredFragments 3).map _ = _ at hfits
  rw [hbig] at hfits
  cases hfits

theorem tight_blocked {s : SignedNode Nat Nat Nat} (h : s.Running tightConfig)
    (hpeer : s.routes.confirmed.contains (zeros 32) = true) (he : s.entries.lookup 1 = some e)
    (r : Readings) (hone : (s.polled r.now).2.length ≤ 1)
    (hbig : s.requiredFragments 3 = .error .recordTooLong) :
    ∃ s', reconcile wideSuite r s = .error (.replica .recordTooLong) s' ∧
      s.TickFails wideSuite r.now (.replica .recordTooLong) s' := by
  have hin : zeros 32 ∈ s.routes.confirmedPeers := (h.named.mem_confirmedPeers _).2 hpeer
  have hcap : 1 < s.maxFramesPerTick := by
    rw [h.cap]
    decide
  have hreported : (s.reported r.now).length < s.maxFramesPerTick :=
    ((List.length_take_le' _ _).trans ((List.length_filter_le _ _).trans hone)).trans_lt hcap
  obtain ⟨first, hhead⟩ := Option.isSome_iff_exists.1
    (List.isSome_head?.2 (List.ne_nil_of_mem (mem_rotation.2 hin)))
  obtain ⟨next, hnext⟩ := exists_nextEntry he first
  obtain ⟨err, s', herr, htick, hfails⟩ := h.reconcile_blocked (E := wideSuite) r
    (h.not_rests rfl hin he hreported) hhead hnext (not_deliverable_wide hbig next.1 next.2)
    fun n hn => by cases hbig.symm.trans hn
  rcases hfails with ⟨e', he', rfl⟩ | ⟨_, ⟨n, hn⟩, _⟩
  · cases hbig.symm.trans he'
    exact ⟨s', herr, htick⟩
  · cases hbig.symm.trans hn

theorem tight_idle {s : SignedNode Nat Nat Nat}
    (hs : confirming.foldl (step wideSuite) (reloaded tightConfig mirror) = s) :
    s.entries.lookup 1 = some (.present ⟨⟨900, 0⟩, 7⟩ 10) ∧ (s.polled tick.now).2 = [] ∧
    s.requiredFragments 3 = .error .recordTooLong ∧
    ∃ s', reconcile wideSuite tick s = .error (.replica .recordTooLong) s' := by
  have hrunning : s.Running tightConfig := hs ▸ (running_new new_tight).run confirming
  have hpeer : s.routes.confirmed.contains (zeros 32) = true := hs ▸ by decide +kernel
  have hentry : s.entries.lookup 1 = some (.present ⟨⟨900, 0⟩, 7⟩ 10) := hs ▸ by decide +kernel
  have hbig : s.requiredFragments 3 = .error .recordTooLong := hs ▸ by decide +kernel
  have hheld : (s.reassembler.expire tick.now).1.held.isEmpty = true := hs ▸ by decide +kernel
  have hdue := polled_of_held hheld
  obtain ⟨s', herr, _⟩ := tight_blocked hrunning hpeer hentry tick
    (by rw [hdue]; exact Nat.zero_le 1) hbig
  exact ⟨hentry, hdue, hbig, s', herr⟩

/-- The snapshot is accepted, but its entry does not fit and the tick fails for it. -/
theorem retained_oversize : ∃ s s',
    new wideSuite tightConfig (zeros 32) nines { nodeId := 1 } (fun _ => 0)
      (.ok (some savedPair)) = .ok (reloaded tightConfig mirror) ∧
    confirming.foldl (step wideSuite) (reloaded tightConfig mirror) = s ∧
    s.entries.lookup 1 = some (.present ⟨⟨900, 0⟩, 7⟩ 10) ∧
    s.ensureEntryFits wideSuite 1 (.present ⟨⟨900, 0⟩, 7⟩ 10) = .error .recordTooLong ∧
    reconcile wideSuite tick s = .error (.replica .recordTooLong) s' := by
  generalize hs : confirming.foldl (step wideSuite) (reloaded tightConfig mirror) = s
  obtain ⟨hentry, _, hbig, s', herr⟩ := tight_idle hs
  refine ⟨s, s', new_tight, rfl, hentry, ?_, herr⟩
  change (s.requiredFragments 3).map _ = _
  rw [hbig]
  rfl

end Tight

def agenda (s : SignedNode K V A) (now : Nat) :
    List (PeerId × TransferId) × List (PeerId × Option (K × Entry Timestamp V)) :=
  (s.requested now, s.rotation.map fun peer => (peer, s.nextEntry peer))

/-- No cursor has moved, no request was noted down, and the next try sets out to send the same. -/
structure Lossless (s s' : SignedNode K V A) (now : Nat) : Prop where
  cursors : ∀ peer, s'.outboundCursors.lookup peer = s.outboundCursors.lookup peer
  timers : ∀ peer id t', s'.reassembler.transfer peer id = some t' →
    ∃ t, s.reassembler.transfer peer id = some t ∧ t'.lastMissingRequest = t.lastMissingRequest
  retry : s'.agenda now = s.agenda now

def forwards (E : SignedSuite K V) (s : SignedNode K V A) (peer : PeerId) : Bool :=
  (s.nextEntry peer).any fun ke => decide (s.Deliverable E ke.1 ke.2)

omit [DecidableEq A] in
theorem Running.served_eq (h : s.Running config) {served : List (Service K V)}
    (hi : (s.turning now).Interrupted E s.rotation served e s') :
    served.map Prod.fst = s.rotation.takeWhile (s.forwards E) := by
  obtain ⟨peer, next, ⟨rest, hrest⟩, hnext, hfails⟩ := hi.failed
  have hin : peer ∈ s.routes.confirmedPeers := by
    rw [← mem_rotation, ← hrest]
    exact List.mem_append_left _ (List.mem_append_right _ List.mem_cons_self)
  have hstuck : ¬s.forwards E peer = true := by
    rw [forwards, show s.nextEntry peer = some next from hnext, Option.any_some, decide_eq_true_eq]
    exact h.not_deliverable hin hfails
  have hserved : ∀ p ∈ served.map Prod.fst, s.forwards E p = true := by
    intro p hp
    obtain ⟨x, hx, rfl⟩ := List.mem_map.1 hp
    rw [forwards, show s.nextEntry x.1 = some x.2 from hi.serves.next x hx, Option.any_some,
      decide_eq_true_eq]
    exact hi.serves.deliverable x hx
  rw [← hrest, List.append_assoc, List.takeWhile_append_of_pos hserved, List.singleton_append,
    List.takeWhile_cons_of_neg hstuck, List.append_nil]

omit [LinearOrder K] [DecidableEq A] in
theorem polled_of_requested (h : s.requested now = []) :
    s.polled now = ((s.reassembler.expire now).1, []) := by
  rw [polled_eq]
  split
  · next hon =>
    rw [requested, if_pos hon, List.take_eq_nil_iff] at h
    rw [h.resolve_left (by decide), Reassembler.pollLoop]
  · rfl

omit [LinearOrder K] [DecidableEq A] in
theorem requested_expired (hframing : s'.framing = s.framing)
    (hbudget : s'.boundary.payloadBudget = s.boundary.payloadBudget)
    (hexpired : s'.reassembler = (s.reassembler.expire now).1) (h : s.requested now = []) :
    s'.requested now = [] := by
  have hranges : s'.reportRanges = s.reportRanges := by
    rw [reportRanges, hframing, hbudget, reportRanges]
  rw [requested, hframing, hranges]
  split
  · next hon =>
    rw [requested, if_pos hon, List.take_eq_nil_iff] at h
    rw [List.take_eq_nil_iff, List.eq_nil_iff_forall_not_mem]
    right
    intro k hk
    obtain ⟨t, ht, hdue⟩ := Reassembler.mem_idleCandidates.1 hk
    rw [hexpired, Reassembler.transfer_expire, Option.filter_eq_some_iff] at ht
    have hin := Reassembler.mem_idleCandidates.2 ⟨t, ht.1, hdue⟩
    rw [h.resolve_left (by decide)] at hin
    cases hin
  · rfl

omit [DecidableEq A] in
theorem Serves.after {served : List (Service K V)} (h : (s.turning now).Serves E peers served s') :
    (s'.reassembler = (s.polled now).1 ∧ s'.framing = s.framing ∧
      s'.boundary.payloadBudget = s.boundary.payloadBudget) ∧
    (s'.routes = s.routes ∧ s'.nextPeerIndex = (s.nextPeerIndex + 1) % 2 ^ 64) ∧
    s'.entries = s.entries ∧ s'.outboundCursors = advance s.outboundCursors served := by
  obtain ⟨_, _, halike, rfl⟩ := h.advances
  exact ⟨⟨rfl, rfl, halike.payloadBudget⟩, ⟨rfl, rfl⟩, rfl, rfl⟩

omit [DecidableEq A] in
theorem nextEntry_congr (hentries : s'.entries = s.entries)
    (hcursor : s'.outboundCursors.lookup peer = s.outboundCursors.lookup peer) :
    s'.nextEntry peer = s.nextEntry peer := by
  simp only [nextEntry, hentries, hcursor]

/-- In every state a node reaches, a tick that fails has lost nothing exactly when it had nothing to
ask for, its rotation comes to the same peer again, and every peer in front of the first whose next
entry cannot be sent stands at its next entry already. -/
theorem reconcile_error_lossless_iff {s₀ : SignedNode K V A} {calls : List (NodeCall K V A)}
    (h₀ : new E config clusterKey signer clock readings loaded = .ok s₀)
    (hr : calls.foldl (step E) s₀ = s) (herr : reconcile E r s = .error e s') :
    s.Lossless s' r.now ↔ s.requested r.now = [] ∧
      (s.nextPeerIndex + 1) % 2 ^ 64 % s.routes.confirmedPeers.length =
        s.nextPeerIndex % s.routes.confirmedPeers.length ∧
      ∀ peer ∈ s.rotation.takeWhile (s.forwards E), ∀ next, s.nextEntry peer = some next →
        s.outboundCursors.lookup peer = some (some next.1) := by
  have hrunning : s.Running config := hr ▸ (running_new h₀).run calls
  have hfails := (yields_reconcile hrunning.configured hrunning.nodup r).error herr
  obtain ⟨served, hi⟩ := hrunning.interrupted hfails
  have hserved := hrunning.served_eq hi
  have hnodup : (served.map Prod.fst).Nodup :=
    (List.nodup_rotate.2 hrunning.nodup).sublist hi.serves.front.sublist
  have hpeers : s.routes.confirmedPeers ≠ [] := by
    obtain ⟨peer, _, hfront, _⟩ := hi.failed
    have hin := hfront.subset (List.mem_append_right _ List.mem_cons_self)
    exact List.ne_nil_of_mem (mem_rotation.1 hin)
  have hnext {x : Service K V} (hx : x ∈ served) : s.nextEntry x.1 = some x.2 :=
    hi.serves.next x hx
  obtain ⟨⟨hpolls, hframing, hbudget⟩, ⟨hroutes, hindex⟩, hentries, hmoved⟩ := hi.serves.after
  rw [← hserved]
  constructor
  · rintro ⟨hcursors, htimers, hretry⟩
    refine ⟨List.eq_nil_iff_forall_not_mem.2 fun k hk => ?_, ?_, fun peer hp next hpeer => ?_⟩
    · obtain ⟨t, t', ht, ht', hne⟩ := advances_requested hrunning.accounted hk
      rw [← hpolls] at ht'
      obtain ⟨t₀, ht₀, hsame⟩ := htimers k.1 k.2 t' ht'
      cases ht.symm.trans ht₀
      exact hne hsame
    · have hrotation := congrArg (List.map Prod.fst) (Prod.mk.inj hretry).2
      simp only [List.map_map, Function.comp_def, List.map_id'] at hrotation
      rw [rotation, rotation, hroutes, hindex] at hrotation
      have hturn := hrunning.nodup.rotate_congr hpeers _ _ hrotation
      rwa [Nat.mod_mod, Nat.mod_mod] at hturn
    · obtain ⟨x, hx, rfl⟩ := List.mem_map.1 hp
      cases hpeer.symm.trans (hnext hx)
      rw [← hcursors x.1, hmoved]
      exact lookup_advance_of_mem _ hnodup hx
  · rintro ⟨hnone, hturn, hstand⟩
    have hexpired : s'.reassembler = (s.reassembler.expire r.now).1 := by
      rw [hpolls, polled_of_requested hnone]
    have hcursors (peer : PeerId) :
        s'.outboundCursors.lookup peer = s.outboundCursors.lookup peer := by
      rw [hmoved]
      by_cases hp : peer ∈ served.map Prod.fst
      · obtain ⟨x, hx, rfl⟩ := List.mem_map.1 hp
        rw [lookup_advance_of_mem _ hnodup hx, hstand x.1 hp x.2 (hnext hx)]
      · exact lookup_advance_of_not_mem _ hp
    have hrotation : s'.rotation = s.rotation := by
      rw [rotation, hroutes, hindex, hturn, rotation]
    refine ⟨hcursors, fun peer id t' ht' => ?_, ?_⟩
    · rw [hexpired, Reassembler.transfer_expire, Option.filter_eq_some_iff] at ht'
      exact ⟨t', ht'.1, rfl⟩
    · simp only [agenda, requested_expired hframing hbudget hexpired hnone, hnone, hrotation,
        nextEntry_congr hentries (hcursors _)]

open Boundary Ingress SignedCausal

theorem reconcile_error_lossless_iff_tight : ∃ s s' e,
    confirming.foldl (step wideSuite) (reloaded tightConfig mirror) = s ∧
    reconcile wideSuite tick s = .error e s' ∧ s.Lossless s' tick.now := by
  generalize hs : confirming.foldl (step wideSuite) (reloaded tightConfig mirror) = s
  obtain ⟨hentry, hdue, hbig, s', herr⟩ := tight_idle hs
  have hrunning : s.Running tightConfig := hs ▸ (running_new new_tight).run confirming
  have hone : s.routes.confirmed.len = 1 := hs ▸ by decide +kernel
  refine ⟨s, s', _, rfl, herr, (reconcile_error_lossless_iff new_tight hs herr).2 ⟨?_, ?_, ?_⟩⟩
  · rw [← keys_polled hrunning.accounted, hdue]
    rfl
  · rw [SignedPeerRoutes.length_confirmedPeers, hone, Nat.mod_one, Nat.mod_one]
  · intro peer hp next hnext
    have hforwards := List.mem_takeWhile_imp hp
    rw [forwards, hnext, Option.any_some, decide_eq_true_eq] at hforwards
    exact absurd hforwards (not_deliverable_wide hbig next.1 next.2)

/-- With a report due, the tick fails after it has noted down the request. -/
theorem reconcile_error_consumes : ∃ s s' e t t',
    halving.foldl (step wideSuite) (reloaded tightConfig mirror) = s ∧
    reconcile wideSuite lateTick s = .error e s' ∧
    s.reassembler.transfer (zeros 32) (zeros 32) = some t ∧ t.lastMissingRequest = none ∧
    s'.reassembler.transfer (zeros 32) (zeros 32) = some t' ∧
    t'.lastMissingRequest = some 3020 := by
  generalize hs : halving.foldl (step wideSuite) (reloaded tightConfig mirror) = s
  have hrunning : s.Running tightConfig := hs ▸ (running_new new_tight).run halving
  have hpeer : s.routes.confirmed.contains (zeros 32) = true := hs ▸ by decide +kernel
  have hentry : (s.entries.lookup 1).isSome = true := hs ▸ by decide +kernel
  have hbig : s.requiredFragments 3 = .error .recordTooLong := hs ▸ by decide +kernel
  have hhalf : s.Halfway := hs ▸ by decide +kernel
  obtain ⟨t, ht, hnone, _, hdue, hmarked⟩ := hhalf.polled
  obtain ⟨e, he⟩ := Option.isSome_iff_exists.1 hentry
  obtain ⟨s', herr, hfails⟩ := tight_blocked hrunning hpeer he lateTick
    (by rw [hdue]; exact le_rfl) hbig
  obtain ⟨_, hi⟩ := hrunning.interrupted hfails
  rw [← hi.serves.after.1.1] at hmarked
  exact ⟨s, s', _, t, t.requested lateTick.now, rfl, herr, ht, hnone, hmarked, rfl⟩

end SignedNode

end Reconcile
