import Reconcile.Fleet

namespace Reconcile
open Lib Replay
set_option autoImplicit true

variable {K V P T A : Type} [LinearOrder K] [LinearOrder P] [LinearOrder T]

def LocalCall.inOrder (r : Replica K V P T) (call : LocalCall K V) (stamps : List T) : Bool :=
  (HashMap.ofList (call.writes r stamps)).toList.all fun kv =>
    (r.map.lookup kv.1).all fun e => e.stamp ≤ kv.2.stamp

theorem LocalCall.store_grows {r : Replica K V P T} {call : LocalCall K V} {stamps : List T}
    (h : call.inOrder r stamps = true) :
    HashMap.Grows Entry.stamp r.map (call.store r stamps).map := by
  rw [LocalCall.store_map]
  refine (HashMap.grows_foldl_insert_iff _ _).2 ?_
  intro k v w hv hw
  have hall := List.all_eq_true.1 h (k, v) ((HashMap.mem_toList _ _ _).2 hv)
  exact of_decide_eq_true ((Option.all_eq_true _ _).1 hall w hw)

namespace MapNode

variable {proto : Protocol K V T A} {ports : SendPorts} {n n' : MapNode K V P T A}

def inOrder (n : MapNode K V P T A) : MapEvent K V P T → Bool
  | .call call stamps | .tryCall call stamps _ _ => call.inOrder n.store.toReplica stamps
  | _ => true

theorem map_applyDatedUpdates (n : MapNode K V P T A) (updates : List (K × Entry T V)) (peer : P)
    (moment : Moment) : (n.applyDatedUpdates proto updates peer moment).store.map =
      (n.store.toReplica.mergeLoop proto.register
        (filterDatedUpdates proto.register n.store.map updates).1).1.map := by
  unfold MapNode.applyDatedUpdates
  cases updates with
  | nil => rfl
  | cons kv updates =>
    generalize filterDatedUpdates proto.register n.store.map (kv :: updates) = filtered
    obtain ⟨toApply, acks⟩ := filtered
    cases toApply with
    | nil =>
      simp only [List.isEmpty_cons, Bool.false_eq_true, if_false, List.isEmpty_nil, if_true]
      split <;> rfl
    | cons =>
      simp only [List.isEmpty_cons, Bool.false_eq_true, if_false]
      split <;> rfl

theorem applyDatedUpdates_grows (n : MapNode K V P T A) (updates : List (K × Entry T V)) (peer : P)
    (moment : Moment) : HashMap.Grows Entry.stamp n.store.map
      (n.applyDatedUpdates proto updates peer moment).store.map := by
  rw [map_applyDatedUpdates]
  exact Replica.mergeLoop_grows _ _ _

theorem complete_grows (n : MapNode K V P T A) (payload : Bytes) (sender : P) (moment : Moment) :
    HashMap.Grows Entry.stamp n.store.map
      (n.complete proto ports payload sender moment).store.map := by
  unfold MapNode.complete MapNode.handleMessages
  simp only
  cases decodeDatagram proto.codec payload with
  | none => exact .refl _
  | some batch =>
    have hbatch : HashMap.Grows Entry.stamp n.store.map
        (MapNode.handleBatch proto ports { n with pendingRepairs := n.pendingRepairs.erase sender }
          batch sender moment).store.map := by
      unfold MapNode.handleBatch
      rw [store_handleValueComparison]
      refine HashMap.Grows.trans ?_ (applyDatedUpdates_grows _ _ _ _)
      rw [store_handleDatedComparison]
      simp only [MemberReplica.map_recordTombstoneAcks]
      split <;> exact .refl _
    simp only
    split
    · simp only [MemberReplica.map_join]
      exact hbatch
    · exact hbatch

theorem step_grows (hs : n.step proto ports event = some (n', out))
    (ho : n.inOrder event = true) : HashMap.Grows Entry.stamp n.store.map n'.store.map := by
  cases event with
  | datagram sender bytes moment =>
    have hr := receives proto ports n sender bytes moment
    rw [Option.some.inj hs] at hr
    cases hr with
    | dropped => exact .refl _
    | pending => exact .refl _
    | @completed payload filter logical hadmitted hreplay hlogical =>
      exact complete_grows (n.framed ports filter sender payload.bytes moment).1 logical sender
        moment
  | send i clock moment =>
    obtain ⟨task, _, hs⟩ := Option.bind_eq_some_iff.1 hs
    cases hout : ports.handOut proto.codec n.endpoint.recovery task.peer clock task.outgoing with
    | error e =>
      simp only [MapNode.runTask, hout] at hs
      cases hs
    | ok handed =>
      simp only [MapNode.runTask, hout] at hs
      cases hs
      exact .refl _
  | call call stamps =>
    obtain ⟨coalescer, _, hs⟩ := Option.bind_eq_some_iff.1 hs
    cases hs
    exact LocalCall.store_grows ho
  | tryCall call stamps claimed now =>
    rw [MapNode.step] at hs
    split at hs
    · cases hs
      split
      · exact LocalCall.store_grows ho
      · exact LocalCall.store_grows ho
    · cases hs
      exact .refl _
  | coalesce event claimed now =>
    rw [MapNode.step] at hs
    split at hs
    · cases hs
    · obtain ⟨m, hm, he⟩ := Option.map_eq_some_iff.1 hs
      cases he
      obtain ⟨coalescer, _, hm⟩ := Option.bind_eq_some_iff.1 hm
      cases hm
      rw [store_broadcasts]
      exact .refl _
  | dump peer event =>
    rw [MapNode.step] at hs
    split at hs
    · cases hs
    · obtain ⟨m, hm, he⟩ := Option.map_eq_some_iff.1 hs
      cases he
      obtain ⟨state, _, hm⟩ := Option.bind_eq_some_iff.1 hm
      cases hm
      exact .refl _
  | round targets now => cases hs; exact .refl _
  | repair now interval => cases hs; exact .refl _
  | retryIncomplete now => cases hs; exact .refl _
  | expire now => cases hs; exact .refl _
  | seed peer now => cases hs; exact .refl _
  | decommission peer =>
    cases hs
    rw [MemberReplica.map_decommissionPeer]
    exact .refl _

end MapNode

namespace Fleet

variable {D : Deployment P} {proto : Protocol K V T A} {s s' : Fleet K V P T A}
variable {e : FleetEvent K V P T}

def inOrder (s : Fleet K V P T A) : FleetEvent K V P T → Bool
  | .dated p event =>
    match s.nodes p with
    | .dated n => n.inOrder event
    | .reader _ => true
  | .reader _ _ => true

/-- Whatever a node has held, it is a dated node that now holds an entry at least as new. -/
def Retains (s : Fleet K V P T A) : Prop :=
  ∀ p k e, s.HeldBy p k e →
    ∃ n, s.nodes p = .dated n ∧ HashMap.Covers Entry.stamp n.store.map k e

theorem Retains.step (h : s.Retains) (hs : Steps D proto s e s') (ho : s.inOrder e = true) :
    s'.Retains := by
  cases hs with
  | @dated p n event n' out hnode hd hs =>
    rw [inOrder, hnode] at ho
    have hgrows := MapNode.step_grows hs ho
    intro q k e he
    rcases List.mem_append.1 he with hin | hin
    · obtain ⟨m, hm, hcovers⟩ := h q k e hin
      by_cases hqp : q = p
      · subst hqp
        cases hnode.symm.trans hm
        exact ⟨n', nodes_act_self, hcovers.grows hgrows⟩
      · exact ⟨m, (nodes_act_of_ne hqp).trans hm, hcovers⟩
    · obtain ⟨⟨k', e'⟩, hin, heq⟩ := List.mem_map.1 hin
      cases heq
      exact ⟨n', nodes_act_self, .of_lookup ((HashMap.mem_toList _ _ _).1 hin)⟩
  | @reader p n event n' out hnode hd hs =>
    intro q k e he
    rcases List.mem_append.1 he with hin | hin
    · obtain ⟨m, hm, hcovers⟩ := h q k e hin
      have hqp : q ≠ p := by
        rintro rfl
        cases hnode.symm.trans hm
      exact ⟨m, (nodes_act_of_ne hqp).trans hm, hcovers⟩
    · cases hin

/-- Members are dated nodes, and what is recorded as acknowledged by a node is a written tombstone
that the node has held something at least as new as. -/
structure Attributed (proto : Protocol K V T A) (s : Fleet K V P T A) : Prop where
  members : ∀ p n, s.nodes p = .dated n → ∀ q ∈ n.store.members, ∃ m, s.nodes q = .dated m
  acks : ∀ p n, s.nodes p = .dated n → ∀ k q version,
    n.store.acknowledgedVersion k q = some version → ∃ e, s.Written k e ∧ e.isTombstone = true ∧
      proto.register.versionHash e = version ∧ ∃ e', s.HeldBy q k e' ∧ e.stamp ≤ e'.stamp

theorem attributed_start : (start D : Fleet K V P T A).Attributed proto where
  members p n hn q hq := by
    simp only [start] at hn
    split at hn
    · cases hn
    · cases hn
      cases hq
  acks p n hn k q version hv := by
    simp only [start] at hn
    split at hn
    · cases hn
    · cases hn
      cases hv

theorem dated_of_steps (hs : Steps D proto s e s') (h : s.nodes q = .dated n) :
    ∃ m, s'.nodes q = .dated m := by
  cases hs with
  | @dated p _ _ n' _ hnode =>
    by_cases hq : q = p
    · subst hq
      exact ⟨n', nodes_act_self⟩
    · exact ⟨n, (nodes_act_of_ne hq).trans h⟩
  | @reader p _ _ _ _ hnode =>
    by_cases hq : q = p
    · subst hq
      cases h.symm.trans hnode
    · exact ⟨n, (nodes_act_of_ne hq).trans h⟩

omit [LinearOrder K] [LinearOrder P] [LinearOrder T] in
/-- Nothing of the dated channel is in a payload of fingerprints. -/
theorem not_spokeDated {codec : MessageCodec (MapMessage K V T A)}
    (h : codec.Speaks ReadNode.ValueOnly w) (hd : decodeDatagram codec w = some batch) :
    batch.spokeDated = false := by
  have hfrom := decodeDatagram_from h hd
  have hranges : batch.datedRanges = [] :=
    List.eq_nil_iff_forall_not_mem.2 fun segment hin => hfrom.datedRanges segment hin
  have hupdates : batch.datedUpdates = [] :=
    List.eq_nil_iff_forall_not_mem.2 fun kv hin => hfrom.datedUpdates kv hin
  have hacks : batch.tombstoneAcks = [] :=
    List.eq_nil_iff_forall_not_mem.2 fun ack hin => hfrom.tombstoneAcks ack hin
  have hconvergence : batch.sawConvergenceAck = false := by
    cases hc : batch.sawConvergenceAck with
    | false => rfl
    | true => exact (hfrom.convergenceAck hc).elim
  simp only [DecodedDatagram.spokeDated, hranges, hupdates, hacks, hconvergence, List.isEmpty_nil,
    Bool.not_true, Bool.or_self]

theorem Attributed.step (h : s.Attributed proto) (hsound : s.Sound D proto)
    (hsinks : s.Sinks proto) (hs : Steps D proto s e s')
    (hg : s.genuine D e.node e.arrival = true) (hc : s'.NoCollision D) : s'.Attributed proto := by
  have hkinds {q : P} {n : MapNode K V P T A} (hq : s.nodes q = .dated n) := dated_of_steps hs hq
  cases hs with
  | @reader p n event n' out hnode hd hs =>
    have hother {q m} (hq : (s.act p (.reader n') out).nodes q = .dated m) :
        s.nodes q = .dated m := by
      by_cases hqp : q = p
      · subst hqp
        rw [nodes_act_self] at hq
        cases hq
      · rwa [nodes_act_of_ne hqp] at hq
    refine ⟨?_, ?_⟩
    · intro q m hq r hr
      obtain ⟨m', hm'⟩ := h.members q m (hother hq) r hr
      exact hkinds hm'
    · intro q m hq k r version hv
      obtain ⟨e, he, ht, hversion, e', he', hle⟩ := h.acks q m (hother hq) k r version hv
      exact ⟨e, written_act k e he, ht, hversion, e', heldBy_act k e' he', hle⟩
  | @dated p n event n' out hnode hd hs =>
    have hold {k r version} (hv : n.store.acknowledgedVersion k r = some version) :
        ∃ e, (s.act p (.dated n') out).Written k e ∧ e.isTombstone = true ∧
          proto.register.versionHash e = version ∧
          ∃ e', (s.act p (.dated n') out).HeldBy r k e' ∧ e.stamp ≤ e'.stamp := by
      obtain ⟨e, he, ht, hversion, e', he', hle⟩ := h.acks p n hnode k r version hv
      exact ⟨e, written_act k e he, ht, hversion, e', heldBy_act k e' he', hle⟩
    refine ⟨?_, ?_⟩
    · intro q m hq r hr
      by_cases hqp : q = p
      · subst hqp
        rw [nodes_act_self] at hq
        cases hq
        cases MapNode.step_store hs with
        | forgets hforgets hout =>
          obtain ⟨m', hm'⟩ := h.members q n hnode r (hforgets.members r hr)
          exact hkinds hm'
        | completed hadmitted hout hcompletes hlearns =>
          rcases hlearns.members r hr with hr | ⟨rfl, batch, hbatch, hspoke⟩
          · obtain ⟨m', hm'⟩ := h.members q n hnode r hr
            exact hkinds hm'
          · have hsent := hsound.sentBy_of_completes (wire_of_genuine hg hcompletes) hcompletes
              (hc.of_completed (hout ▸ List.mem_cons_self))
            cases hkind : s.nodes r with
            | dated m' => exact hkinds hkind
            | reader m' =>
              rw [not_spokeDated ((hsinks r m' hkind).2 _ hsent) hbatch] at hspoke
              cases hspoke
      · rw [nodes_act_of_ne hqp] at hq
        obtain ⟨m', hm'⟩ := h.members q m hq r hr
        exact hkinds hm'
    · intro q m hq k r version hv
      by_cases hqp : q = p
      · subst hqp
        rw [nodes_act_self] at hq
        cases hq
        cases MapNode.step_store hs with
        | forgets hforgets hout => exact hold (hforgets.acks k r version hv)
        | completed hadmitted hout hcompletes hlearns =>
          rcases hlearns.acks k r version hv with hv | ⟨rfl, batch, v, hbatch, hin, rfl⟩
          · exact hold hv
          · have hsent := hsound.sentBy_of_completes (wire_of_genuine hg hcompletes) hcompletes
              (hc.of_completed (hout ▸ List.mem_cons_self))
            obtain ⟨e, he, ht, hversion, e', he', hle⟩ :=
              (decodeDatagram_from (hsound.sent _ hsent) hbatch).tombstoneAcks (k, v) hin
            exact ⟨e, written_act k e he, ht, hversion, e', heldBy_act k e' he', hle⟩
      · rw [nodes_act_of_ne hqp] at hq
        obtain ⟨e, he, ht, hversion, e', he', hle⟩ := h.acks q m hq k r version hv
        exact ⟨e, written_act k e he, ht, hversion, e', heldBy_act k e' he', hle⟩

section Runs

variable {es : List (FleetEvent K V P T)}

def Genuine (D : Deployment P) (proto : Protocol K V T A) (es : List (FleetEvent K V P T)) : Prop :=
  EachStep (Fleet.step D proto) (fun s e _ => s.genuine D e.node e.arrival = true) (start D) es

def InOrder (D : Deployment P) (proto : Protocol K V T A) (es : List (FleetEvent K V P T)) : Prop :=
  EachStep (Fleet.step D proto) (fun s e _ => s.inOrder e = true) (start D) es

theorem attributed_of_runs (h : Runs (Fleet.step D proto) (start D) es s)
    (hg : Genuine D proto es) (hc : s.NoCollision D) : s.Attributed proto := by
  refine ((h.invariant_of
    (fun _ s => s.Sinks proto ∧ (s.NoCollision D → s.Sound D proto ∧ s.Attributed proto))
    ⟨sinks_start, fun _ => ⟨sound_start, attributed_start⟩⟩ ?_ hg).2 hc).2
  intro es s e s' ih hs hg
  have hsteps := steps_of_step hs
  refine ⟨ih.1.step hsteps, ?_⟩
  intro hc
  obtain ⟨hsound, hattributed⟩ := ih.2 (noCollision_of_step hs hc)
  exact ⟨hsound.step ih.1 hsteps hc, hattributed.step hsound ih.1 hsteps hg hc⟩

theorem retains_of_runs (h : Runs (Fleet.step D proto) (start D) es s)
    (ho : InOrder D proto es) : s.Retains := by
  refine h.invariant_of (fun _ s => s.Retains) ?_ ?_ ho
  · intro p k e he
    cases he
  · intro es s e s' ih hs ho
    exact ih.step (steps_of_step hs) ho

end Runs

end Fleet

end Reconcile
