import Reconcile.Engine
import Reconcile.Stability

namespace Reconcile
open Lib
set_option autoImplicit true

variable {K V P T : Type} [LinearOrder K] [DecidableEq P]

def Transaction.ofEntries (ws : List (K × Entry T V)) : Transaction K V P T :=
  ws.map fun kv => .entry kv.1 kv.2

theorem CausalState.transact_ofEntries (s : CausalState K V P T) (ws : List (K × Entry T V)) :
    s.transact (.ofEntries ws) =
      { s with entries := ws.foldl (fun m kv => m.insert kv.1 kv.2) s.entries } := by
  induction ws generalizing s with
  | nil => rfl
  | cons kv ws ih => exact ih (s.mutate (.entry kv.1 kv.2))

theorem Journal.recovered_view {j₀ j : Journal K V P T} (h : j₀.Exact)
    (hr : Reachable strict j₀ j) : j.recovered.view = j.live.view := by
  rw [view_recovered]
  exact (h.reachable hr).replay

theorem Journal.exact_fresh : (fresh K V P T).Exact :=
  exact_of_clean ⟨rfl, rfl, rfl⟩ rfl rfl

theorem Journal.Step.live_eq {j j' : Journal K V P T} (hs : Step strict j j')
    (hl : j'.log = j.log) : j'.live = j.live := by
  cases hs with
  | mutate tx =>
    have hlen := congrArg List.length hl
    rw [List.length_append, List.length_singleton] at hlen
    omega
  | _ => rfl

/-- From `r` to `r'` the map takes the listed entries in order, and the journal the same ones. -/
structure Replica.Wrote (r : Replica K V P T) (ws : List (K × Entry T V))
    (r' : Replica K V P T) : Prop where
  map : r'.map = ws.foldl (fun m kv => m.insert kv.1 kv.2) r.map
  journal : r'.generations = r.generations.transact (.ofEntries ws)

namespace Replica

theorem Wrote.refl (r : Replica K V P T) : r.Wrote [] r := ⟨rfl, rfl⟩

theorem Wrote.cons {r r' : Replica K V P T} {k : K} {e : Entry T V}
    (h : (r.mapInsert k e).Wrote ws r') : r.Wrote ((k, e) :: ws) r' :=
  ⟨h.map, h.journal⟩

theorem Wrote.recordChanges {r r' : Replica K V P T} (h : r.Wrote ws r') (n : Nat) :
    r.Wrote ws (r'.recordChanges n) :=
  ⟨h.map, h.journal⟩

theorem wrote_mapInsertAll (r : Replica K V P T) (ws : List (K × Entry T V)) :
    r.Wrote ws (r.mapInsertAll ws) := by
  induction ws generalizing r with
  | nil => exact .refl r
  | cons kv ws ih => exact .cons (ih (r.mapInsert kv.1 kv.2))

variable [LinearOrder T] (R : Rsos T V)

def mergeWrites : Replica K V P T → List (K × Entry T V) → List (K × Entry T V)
  | _, [] => []
  | r, (k, v) :: toApply => (k, r.mergedEntry R k v) :: mergeWrites (r.mergeUpdate R k v) toApply

theorem wrote_mergeLoop (r : Replica K V P T) (toApply : List (K × Entry T V)) :
    r.Wrote (r.mergeWrites R toApply) (r.mergeLoop R toApply).1 := by
  induction toApply generalizing r with
  | nil => exact .refl r
  | cons kv toApply ih =>
    obtain ⟨k, v⟩ := kv
    -- the collision report in between touches neither the map nor the journal
    have h := ih (r.mergeUpdate R k v)
    exact ⟨h.map, h.journal⟩

end Replica

theorem LocalCall.wrote_store (r : Replica K V P T) (call : LocalCall K V) (stamps : List T) :
    r.Wrote (call.writes r stamps) (call.store r stamps) := by
  refine ⟨call.store_map r stamps, ?_⟩
  fun_cases call.store r stamps with
  | case1 k v now => rfl
  | case2 k now => rfl
  | case3 kvs stamps => exact (r.wrote_mapInsertAll _).journal
  | case4 keys stamps => exact (r.wrote_mapInsertAll _).journal
  | case5 k callback now =>
    simp only [writes, Replica.getMut]
    split <;> rfl
  | case6 k callback validate now =>
    simp only [writes, Replica.mutateLiveChecked]
    split
    · split <;> rfl
    · rfl
  | case7 call stamps =>
    rw [writes] <;> first | rfl | assumption

namespace Engine

variable [LinearOrder T] {R : Rsos T V}

def writes (R : Rsos T V) (c : Engine K V P T) : Event K V T → List (K × Entry T V)
  | .merge i => (c.applying[i]?.map (c.replica.mergeWrites R)).getD []
  | .store i => (c.writing[i]?.map fun p => p.call.writes c.replica p.stamps).getD []
  | _ => []

theorem wrote_step {c c' : Engine K V P T} (h : c.step R ev = some c') :
    c.replica.Wrote (c.writes R ev) c'.replica := by
  cases ev with
  | receive updates =>
    cases h
    exact .refl _
  | merge i =>
    obtain ⟨toApply, hi, rfl⟩ := step_merge h
    rw [writes, hi]
    exact (c.replica.wrote_mergeLoop R toApply).recordChanges _
  | call call =>
    cases h
    exact .refl _
  | mint i now =>
    obtain ⟨p, _, _, rfl⟩ := step_mint h
    exact .refl _
  | store i =>
    obtain ⟨p, hi, rfl⟩ := step_store h
    rw [writes, hi]
    exact p.call.wrote_store c.replica p.stamps

/-- An engine from its start, with snapshot attempts running beside it: they share the tracker,
and only the engine writes. -/
inductive Persisting (R : Rsos T V) (strict : Bool) : Engine K V P T → Journal K V P T → Prop where
  | start : Persisting R strict {} (.fresh K V P T)
  | write (h : Persisting R strict c j) (hs : c.step R ev = some c') :
    Persisting R strict c' { j with
      live := { j.live with entries := c'.replica.map }
      tracker := c'.replica.generations
      log := j.log ++ [.ofEntries (c.writes R ev)] }
  | snapshot (h : Persisting R strict c j) (hs : Journal.Step strict j j') (hl : j'.log = j.log) :
    Persisting R strict { c with replica.generations := j'.tracker } j'

variable {c : Engine K V P T}

theorem Persisting.reachable {j : Journal K V P T} (h : Persisting R strict c j) :
    Journal.Reachable strict (.fresh K V P T) j ∧ j.live.entries = c.replica.map ∧
      j.tracker = c.replica.generations := by
  induction h with
  | start => exact ⟨.refl, rfl, rfl⟩
  | @write c j ev c' h hs ih =>
    obtain ⟨hr, hm, ht⟩ := ih
    have hw := wrote_step hs
    have hstep : Journal.Step strict j _ := .mutate j (.ofEntries (c.writes R ev))
    rw [CausalState.transact_ofEntries, hm, ht, ← hw.map, ← hw.journal] at hstep
    exact ⟨hr.step hstep, rfl, rfl⟩
  | snapshot h hs hl ih =>
    obtain ⟨hr, hm, ht⟩ := ih
    exact ⟨hr.step hs, (congrArg CausalState.entries (hs.live_eq hl)).trans hm, rfl⟩

/-- At every point of every run, the durable state with the journaled generations over it has
exactly the entries of the map. -/
theorem Persisting.recovers {j : Journal K V P T} (h : Persisting R strict c j) (k : K) :
    j.recovered.entries.lookup k = c.replica.map.lookup k := by
  obtain ⟨hr, hm, _⟩ := h.reachable
  rw [← hm]
  exact congrFun (Journal.recovered_view Journal.exact_fresh hr) (.entry k)

end Engine

def SignedReplica.Transacts (s s' : SignedReplica K V P T) : Prop :=
  ∃ tx, s'.toCausalState = s.toCausalState.transact tx ∧
    s'.generations = s.generations.transact tx

namespace SignedReplica

theorem Transacts.refl (s : SignedReplica K V P T) : s.Transacts s := ⟨[], rfl, rfl⟩

theorem transacts_transact (s : SignedReplica K V P T) (tx : Transaction K V P T) :
    s.Transacts (s.transact tx) := ⟨tx, rfl, rfl⟩

theorem transacts_decommission (s : SignedReplica K V P T) (peer : P) :
    s.Transacts (s.decommission peer).2 := ⟨_, rfl, rfl⟩

variable [LinearOrder T] (R : Rsos T V)

theorem transacts_applyRemoteEntry (s : SignedReplica K V P T) (peer : P) (key : K)
    (remote : Entry T V) : s.Transacts (s.applyRemoteEntry R peer key remote).2 := by
  rw [applyRemoteEntry]
  split
  · simp only
    split
    · exact s.transacts_transact _
    · exact .refl s
  · exact .refl s

theorem transacts_acceptAck (s : SignedReplica K V P T) (peer : P) (key : K) (version : Nat) :
    s.Transacts (s.acceptAck R peer key version) := by
  rw [acceptAck]
  split
  · split
    · split
      · split
        · exact .refl s
        · exact s.transacts_transact _
      · exact .refl s
    · exact .refl s
  · exact .refl s

theorem transacts_handleVerifiedMessage (s : SignedReplica K V P T) (peer : P)
    (m : SignedMessage K V T) : s.Transacts (s.handleVerifiedMessage R peer m).2 := by
  cases m with
  | hello => exact .refl s
  | update key entry =>
    rw [handleVerifiedMessage]
    split
    · exact s.transacts_applyRemoteEntry R peer key entry
    · exact .refl s
  | ack key version => exact s.transacts_acceptAck R peer key version

end SignedReplica

namespace Cluster

variable [LinearOrder T] {R : Rsos T V} {fits : K → Entry T V → Except SignedError Unit}
  {observer : P} {c₀ c c' : Cluster K V P T}

omit [LinearOrder T] in
theorem transacts_set {p : P} {s : SignedReplica K V P T}
    (h : p = observer → (c.nodes p).Transacts s) :
    (c.nodes observer).Transacts ((c.set p s).nodes observer) := by
  by_cases hp : observer = p
  · subst hp
    simp only [set, Function.update_self]
    exact h rfl
  · simp only [set, Function.update_of_ne hp]
    exact .refl _

theorem transacts_step (h : c.step R fits observer ev = some c') :
    (c.nodes observer).Transacts (c'.nodes observer) := by
  cases ev with
  | insert p key value now =>
    rw [step] at h
    split at h
    · next s hs =>
      cases h
      rw [(SignedReplica.insert_eq_ok hs).2]
      exact transacts_set fun _ => (c.nodes p).transacts_transact _
    · cases h
      exact .refl _
  | remove p key now =>
    rw [step] at h
    split at h
    · next s hs =>
      cases h
      rw [(SignedReplica.remove_eq_ok hs).2]
      exact transacts_set fun _ => (c.nodes p).transacts_transact _
    · cases h
      exact .refl _
  | decommission p peer =>
    cases h
    exact transacts_set fun _ => (c.nodes p).transacts_decommission peer
  | collect p key =>
    cases h
    exact transacts_set fun _ => .refl _
  | hello p =>
    cases h
    exact .refl _
  | update p key =>
    rw [step] at h
    split at h
    · cases h
      exact .refl _
    · cases h
  | deliver p i =>
    rw [step] at h
    split at h
    · cases h
      exact transacts_set fun _ => (c.nodes p).transacts_handleVerifiedMessage R _ _
    · cases h
  | restart p s =>
    rw [step] at h
    split at h
    · cases h
    · next hp =>
      cases h
      exact transacts_set fun he => absurd he hp

theorem journal_reachable {j₀ : Journal K V P T} {es : List (Event K V P T)}
    (hl : j₀.live = (c₀.nodes observer).toCausalState)
    (ht : j₀.tracker = (c₀.nodes observer).generations)
    (hr : Runs (step R fits observer) c₀ es c) :
    ∃ j, Journal.Reachable strict j₀ j ∧ j.live = (c.nodes observer).toCausalState ∧
      j.tracker = (c.nodes observer).generations := by
  induction hr with
  | start => exact ⟨j₀, .refl, hl, ht⟩
  | snoc _ hs ih =>
    obtain ⟨j, hj, hl, ht⟩ := ih
    obtain ⟨tx, hlive, htracker⟩ := transacts_step hs
    refine ⟨_, hj.step (.mutate j tx), ?_, ?_⟩
    · rw [hlive, ← hl]
    · rw [htracker, ← ht]

/-- What the observer's tracker holds, replayed over the state it started from, is its causal
state: entries, members and acknowledgements. -/
theorem journal_recovers {j₀ : Journal K V P T} {es : List (Event K V P T)} (he : j₀.Exact)
    (hl : j₀.live = (c₀.nodes observer).toCausalState)
    (ht : j₀.tracker = (c₀.nodes observer).generations)
    (hr : Runs (step R fits observer) c₀ es c) :
    ∃ j, Journal.Reachable strict j₀ j ∧ j.tracker = (c.nodes observer).generations ∧
      j.recovered.Same (c.nodes observer).toCausalState := by
  obtain ⟨j, hj, hlive, htracker⟩ := journal_reachable hl ht hr
  refine ⟨j, hj, htracker, ?_⟩
  rw [CausalState.same_iff, ← hlive]
  exact Journal.recovered_view he hj

end Cluster

end Reconcile
