import Reconcile.Fleet.Safety

namespace Reconcile
open Lib Replay
set_option autoImplicit true

variable {K V P T A : Type} [LinearOrder K] [LinearOrder P] [LinearOrder T]

namespace MapNode

variable {proto : Protocol K V T A} {ports : SendPorts} {n n' : MapNode K V P T A}

theorem applyDatedUpdates_covers {updates : List (K × Entry T V)} (h : (k, e) ∈ updates) (peer : P)
    (moment : Moment) : HashMap.Covers Entry.stamp
      (n.applyDatedUpdates proto updates peer moment).store.map k e := by
  have hkept : HashMap.Covers Entry.stamp n.store.map k e ∨
      (k, e) ∈ (filterDatedUpdates proto.register n.store.map updates).1 :=
    covers_or_mem_filterDatedUpdates proto.register h
  rcases hkept with hcovers | hin
  · exact hcovers.grows (applyDatedUpdates_grows n updates peer moment)
  · rw [map_applyDatedUpdates]
    exact Replica.mergeLoop_covers proto.register hin

theorem complete_covers (hd : decodeDatagram proto.codec payload = some batch)
    (hin : (k, e) ∈ batch.datedUpdates) (sender : P) (moment : Moment) :
    HashMap.Covers Entry.stamp (n.complete proto ports payload sender moment).store.map k e := by
  have hbatch : HashMap.Covers Entry.stamp (MapNode.handleBatch proto ports
      { n with pendingRepairs := n.pendingRepairs.erase sender } batch sender moment).store.map
      k e := by
    rw [MapNode.handleBatch, store_handleValueComparison]
    exact applyDatedUpdates_covers hin sender moment
  simp only [MapNode.complete, MapNode.handleMessages, hd]
  split
  · rw [MemberReplica.map_join]
    exact hbatch
  · exact hbatch

theorem step_covers (hs : n.step proto ports event = some (n', out)) (hw : w ∈ out.completed)
    (hd : decodeDatagram proto.codec w = some batch) (hin : (k, e) ∈ batch.datedUpdates) :
    HashMap.Covers Entry.stamp n'.store.map k e := by
  cases step_store hs with
  | forgets _ hout =>
    rw [hout] at hw
    cases hw
  | @completed sender bytes moment payload logical hadmitted hout hcompletes hlearns =>
    have hr := receives proto ports n sender bytes moment
    rw [Option.some.inj hs] at hr
    cases hr with
    | dropped => cases hw
    | pending => cases hw
    | completed =>
      cases List.mem_singleton.1 hw
      exact complete_covers hd hin sender moment

end MapNode

namespace Fleet

variable {D : Deployment P} {proto : Protocol K V T A} {s s' s'' : Fleet K V P T A}
variable {es es' : List (FleetEvent K V P T)} {event : MapEvent K V P T}

def UniqueStamps (s : Fleet K V P T A) : Prop :=
  ∀ k e e', s.Written k e → s.Written k e' → e.stamp = e'.stamp → e = e'

/-- `p` has held, for every key `q` now has, an entry at least as new. -/
def CaughtUp (s : Fleet K V P T A) (p q : P) : Prop :=
  ∀ n, s.nodes q = .dated n → ∀ k e, n.store.map.lookup k = some e →
    ∃ e', s.HeldBy p k e' ∧ e.stamp ≤ e'.stamp

theorem heldBy_of_runs (h : Runs (Fleet.step D proto) s es s') (he : s.HeldBy p k e) :
    s'.HeldBy p k e := by
  refine h.invariant (fun _ s => s.HeldBy p k e) he ?_
  intro es s event s' ih hs
  cases steps_of_step hs with
  | dated => exact heldBy_act k e ih
  | reader => exact heldBy_act k e ih

/-- A dated update that reaches a dated node in a completed payload is never lost there: from that
step on the node holds it or something newer, whatever arrives or is written later, as long as local
calls are in order. -/
theorem completed_update_retained (hr : Runs (Fleet.step D proto) (start D) es s)
    (hs : s.step D proto (.dated p event) = some s') (hw : s'.completed = s.completed ++ [w])
    (hd : decodeDatagram proto.codec w = some batch) (hin : (k, e) ∈ batch.datedUpdates)
    (h : Runs (Fleet.step D proto) (start D) (es ++ .dated p event :: es') s'')
    (ho : InOrder D proto (es ++ .dated p event :: es')) :
    ∃ n, s''.nodes p = .dated n ∧ HashMap.Covers Entry.stamp n.store.map k e := by
  have hlater := h.after hr hs
  cases steps_of_step hs with
  | @dated p n event n' out hnode hdelivers hstep =>
    have hout : out.completed = [w] := List.append_cancel_left hw
    obtain ⟨e', he', hle⟩ := MapNode.step_covers hstep (hout ▸ List.mem_cons_self) hd hin
    have hnow : (s.act p (.dated n') out).HeldBy p k e' := heldBy_act_self k e' he'
    have hheld := heldBy_of_runs hlater hnow
    obtain ⟨m, hm, hcovers⟩ := retains_of_runs h ho p k e' hheld
    exact ⟨m, hm, hcovers.mono hle⟩

namespace Small

theorem arrival_reads :
    ((runAll (Fleet.step deployment protocol) (start deployment) sending).bind fun s =>
      (s.step deployment protocol (.dated 1 arrival)).bind fun s' =>
        (decodeDatagram protocol.codec (s'.completed.getLastD [])).map fun batch =>
          (decide (s'.completed = s.completed ++ [s'.completed.getLastD []]),
            batch.datedUpdates)) = some (true, [(5, .tombstone 3)]) := by
  decide +kernel

theorem caughtUp_of_held {s : Fleet Num Num (Fin 3) Num UInt8}
    (h : ∀ n, datedAt s q = some n → ∀ kv ∈ n.store.map.toList,
      ∃ x ∈ s.held, x.1 = p ∧ x.2.1 = kv.1 ∧ kv.2.stamp ≤ x.2.2.stamp) : s.CaughtUp p q := by
  intro n hn k e he
  have hdated : datedAt s q = some n := by rw [datedAt, hn]
  obtain ⟨⟨p', k', e'⟩, hx, rfl, rfl, hle⟩ := h n hdated (k, e) ((HashMap.mem_toList _ _ _).2 he)
  exact ⟨e', hx, hle⟩

end Small

theorem completed_update_retained_exchange :
    ∃ n, Small.final.nodes 1 = .dated n ∧
      HashMap.Covers Entry.stamp n.store.map 5 (.tombstone 3) := by
  obtain ⟨s, hsending, hread⟩ := Option.bind_eq_some_iff.1 Small.arrival_reads
  obtain ⟨s', hs, hread⟩ := Option.bind_eq_some_iff.1 hread
  obtain ⟨batch, hd, hread⟩ := Option.map_eq_some_iff.1 hread
  obtain ⟨hone, hupdates⟩ := Prod.mk.inj hread
  have hr := runs_of_runAll hsending
  have hw := of_decide_eq_true hone
  have hin : (5, Entry.tombstone 3) ∈ batch.datedUpdates := hupdates ▸ List.mem_cons_self
  have hsplit : Small.exchange = Small.sending ++ .dated 1 Small.arrival ::
      Small.exchange.drop 8 := rfl
  have h := Small.runs_exchange
  have ho := Small.inOrder_exchange
  rw [hsplit] at h ho
  exact completed_update_retained hr hs hw hd hin h ho

theorem CaughtUp.lookup_eq (hsound : s.Sound D proto) (hretains : s.Retains)
    (hu : s.UniqueStamps) (hn : s.nodes p = .dated n) (hm : s.nodes q = .dated m)
    (hqp : s.CaughtUp q p) (hpq : s.CaughtUp p q) (he : n.store.map.lookup k = some e) :
    m.store.map.lookup k = some e := by
  obtain ⟨e₁, hheld, hle₁⟩ := hqp n hn k e he
  obtain ⟨m', hm', e₂, he₂, hle₂⟩ := hretains q k e₁ hheld
  cases hm.symm.trans hm'
  -- What `q` has now came back to `p`, so neither stamp is above the other.
  obtain ⟨e₃, hheld, hle₃⟩ := hpq m hm k e₂ he₂
  obtain ⟨n', hn', e₄, he₄, hle₄⟩ := hretains p k e₃ hheld
  cases hn.symm.trans hn'
  cases he.symm.trans he₄
  have hp := hsound.nodes p
  have hq := hsound.nodes q
  rw [hn] at hp
  rw [hm] at hq
  have hstamp : e.stamp = e₂.stamp := le_antisymm (hle₁.trans hle₂) (hle₃.trans hle₄)
  rw [hu k e e₂ (hp.1.map k e he) (hq.1.map k e₂ he₂) hstamp]
  exact he₂

/-- Nodes that have caught up with each other agree on every key, whatever the order in which they
were given the entries, as long as local calls are in order and no two writes of a key share a
stamp. -/
theorem caught_up_agree (h : Runs (Fleet.step D proto) (start D) es s) (ho : InOrder D proto es)
    (hc : s.NoCollision D) (hu : s.UniqueStamps) (hn : s.nodes p = .dated n)
    (hm : s.nodes q = .dated m) (hpq : s.CaughtUp p q) (hqp : s.CaughtUp q p) (k : K) :
    n.store.map.lookup k = m.store.map.lookup k := by
  have hsound := sound_of_runs h hc
  have hretains := retains_of_runs h ho
  apply Option.ext
  intro e
  constructor
  · exact CaughtUp.lookup_eq hsound hretains hu hn hm hqp hpq
  · exact CaughtUp.lookup_eq hsound hretains hu hm hn hpq hqp

theorem caught_up_agree_exchange :
    ∃ n m, Small.final.nodes 0 = .dated n ∧ Small.final.nodes 1 = .dated m ∧
      n.store.map.lookup 5 = some (.tombstone 3) ∧
      n.store.map.lookup 5 = m.store.map.lookup 5 := by
  have hread : (Small.datedAt Small.final 0).bind (fun n => n.store.map.lookup 5) =
      some (.tombstone 3) := by decide +kernel
  obtain ⟨n, hn, hlookup⟩ := Small.exists_dated hread
  obtain ⟨hother, _⟩ := Small.final_reads
  obtain ⟨m, hm, _⟩ := Small.exists_dated hother
  have hu : Small.final.UniqueStamps := by
    have hall : ∀ x ∈ Small.final.written, ∀ y ∈ Small.final.written,
        x.1 = y.1 → x.2.stamp = y.2.stamp → x.2 = y.2 := by decide +kernel
    exact fun k e e' he he' hstamp => hall (k, e) he (k, e') he' rfl hstamp
  have hpq : Small.final.CaughtUp 0 1 := Small.caughtUp_of_held (by decide +kernel)
  have hqp : Small.final.CaughtUp 1 0 := Small.caughtUp_of_held (by decide +kernel)
  exact ⟨n, m, hn, hm, hlookup, caught_up_agree Small.runs_exchange Small.inOrder_exchange
    Small.noCollision_final hu hn hm hpq hqp 5⟩

end Fleet

end Reconcile
