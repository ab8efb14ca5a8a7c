import Mathlib.Algebra.Order.BigOperators.Group.List
import Mathlib.Data.List.Dedup
import Reconcile.Fleet.Safety
import Reconcile.Topology

namespace Reconcile
open Lib
set_option autoImplicit true

def IpAddr.rank : IpAddr → Nat
  | .v4 addr => addr.toNat
  | .v6 addr => 2 ^ 32 + addr.toNat

theorem IpAddr.rank_injective : Function.Injective IpAddr.rank := by
  intro a b h
  cases a with
  | v4 a =>
    cases b with
    | v4 b => exact congrArg IpAddr.v4 (BitVec.eq_of_toNat_eq h)
    | v6 b => exact absurd h (Nat.ne_of_lt (Nat.lt_add_right _ a.isLt))
  | v6 a =>
    cases b with
    | v4 b => exact absurd h.symm (Nat.ne_of_lt (Nat.lt_add_right _ b.isLt))
    | v6 b => exact congrArg IpAddr.v6 (BitVec.eq_of_toNat_eq (Nat.add_left_cancel h))

instance instLinearOrderIpAddr : LinearOrder IpAddr :=
  LinearOrder.lift' IpAddr.rank IpAddr.rank_injective

variable {I : Ipnet}

/-- A peer whose last batch is recent may still be sending the rest. -/
def stillReceivingBulk (lastReceived : Option Nat) (now repairInterval : Nat) : Bool :=
  lastReceived.any fun last => now - last < repairInterval

structure RoundView (I : Ipnet) where
  nets : List I.Net
  localNet : I.Net
  remoteInterval : UInt32
  remoteFanout : Nat
  round : UInt32
  known : List IpAddr

structure RoundInput where
  draws : Nat → Draw
  shuffle : Option Nat → List IpAddr → List IpAddr
  shuffle_perm : ∀ bucket peers, (shuffle bucket peers).Perm peers
  now : Nat
  /-- The clock again, once the targets are picked. -/
  later : Nat
  repairInterval : Nat

namespace RoundView

/-- An interval of zero is every round. -/
def doRemote (v : RoundView I) : Bool := v.round % max v.remoteInterval 1 == 0

def remoteNets (v : RoundView I) : List I.Net := v.nets.filter (· ≠ v.localNet)

def localPeers (v : RoundView I) : List IpAddr := v.known.filter (I.contains v.localNet)

def remotePeers (v : RoundView I) : List IpAddr := v.known.filter (!I.contains v.localNet ·)

/-- The first remote network an address is in; an address in none is in a bucket of its own. -/
def bucket (v : RoundView I) (addr : IpAddr) : Option Nat := v.remoteNets.findIdx? (I.contains · addr)

def bucketPeers (v : RoundView I) (bucket : Option Nat) : List IpAddr :=
  v.remotePeers.filter (v.bucket · = bucket)

def buckets (v : RoundView I) : List (Option Nat) := (v.remotePeers.map v.bucket).dedup

def remoteTargets (v : RoundView I) (shuffle : Option Nat → List IpAddr → List IpAddr) :
    List IpAddr :=
  v.buckets.flatMap fun bucket => (shuffle bucket (v.bucketPeers bucket)).take v.remoteFanout

def targets (v : RoundView I) (probes : List IpAddr) (input : RoundInput)
    (receiving : IpAddr → Option Nat) : List IpAddr :=
  let picked := probes ++ v.localPeers ++ if v.doRemote then v.remoteTargets input.shuffle else []
  picked.dedup.filter fun addr =>
    !stillReceivingBulk (receiving addr) input.later input.repairInterval

theorem doRemote_iff {v : RoundView I} :
    v.doRemote = true ↔ v.round.toNat % max v.remoteInterval.toNat 1 = 0 := by
  have hmax : (max v.remoteInterval 1).toNat = max v.remoteInterval.toNat 1 := by
    change (if v.remoteInterval ≤ 1 then 1 else v.remoteInterval).toNat = _
    rw [max_def, apply_ite UInt32.toNat]
    rfl
  rw [doRemote, beq_iff_eq, ← UInt32.toNat_inj, UInt32.toNat_mod, hmax]
  rfl

theorem length_buckets_le (v : RoundView I) : v.buckets.length ≤ v.nets.length + 1 := by
  have hsub : v.buckets ⊆ none :: (List.range v.remoteNets.length).map some := by
    intro b hb
    rw [buckets, List.mem_dedup, List.mem_map] at hb
    obtain ⟨addr, _, rfl⟩ := hb
    cases h : v.bucket addr with
    | none => exact List.mem_cons_self
    | some i =>
      obtain ⟨hi, _⟩ := List.findIdx?_eq_some_iff_getElem.1 h
      exact List.mem_cons_of_mem _ (List.mem_map_of_mem (List.mem_range.2 hi))
  have hlen := (List.nodup_dedup _).length_le_of_subset hsub
  rw [List.length_cons, List.length_map, List.length_range] at hlen
  exact hlen.trans (Nat.add_le_add_right (List.length_filter_le _ _) 1)

theorem length_remoteTargets_le (v : RoundView I)
    (shuffle : Option Nat → List IpAddr → List IpAddr) :
    (v.remoteTargets shuffle).length ≤ (v.nets.length + 1) * v.remoteFanout := by
  have hsum : (v.remoteTargets shuffle).length ≤ v.buckets.length * v.remoteFanout := by
    rw [remoteTargets, List.length_flatMap]
    refine (List.sum_le_card_nsmul _ v.remoteFanout ?_).trans_eq (by simp)
    intro n hn
    obtain ⟨bucket, _, rfl⟩ := List.mem_map.1 hn
    exact List.length_take_le _ _
  exact hsum.trans (Nat.mul_le_mul_right _ v.length_buckets_le)

theorem mem_remoteTargets {v : RoundView I} {shuffle : Option Nat → List IpAddr → List IpAddr}
    (hshuffle : ∀ bucket peers, (shuffle bucket peers).Perm peers) (hp : p ∈ v.remotePeers)
    (hsmall : (v.bucketPeers (v.bucket p)).length ≤ v.remoteFanout) :
    p ∈ v.remoteTargets shuffle := by
  have hmem : p ∈ v.bucketPeers (v.bucket p) :=
    List.mem_filter.2 ⟨hp, decide_eq_true rfl⟩
  have hperm := hshuffle (v.bucket p) (v.bucketPeers (v.bucket p))
  refine List.mem_flatMap.2 ⟨v.bucket p, List.mem_dedup.2 (List.mem_map_of_mem hp), ?_⟩
  rw [List.take_of_length_le (hperm.length_eq.trans_le hsmall)]
  exact hperm.mem_iff.2 hmem

section
variable {v : RoundView I} {probes : List IpAddr} {input : RoundInput}
  {receiving : IpAddr → Option Nat}

theorem mem_targets_of_local (hp : p ∈ v.known) (hlocal : I.contains v.localNet p = true)
    (hrecv : stillReceivingBulk (receiving p) input.later input.repairInterval = false) :
    p ∈ v.targets probes input receiving := by
  have hpicked := List.mem_append_right probes (List.mem_filter.2 ⟨hp, hlocal⟩)
  refine List.mem_filter.2 ⟨List.mem_dedup.2 (List.mem_append_left _ hpicked), ?_⟩
  rw [hrecv]
  rfl

/-- A cross-network round leaves nobody out whose bucket fits the fan-out. -/
theorem mem_targets_of_doRemote (hremote : v.doRemote = true) (hp : p ∈ v.known)
    (hsmall : (v.bucketPeers (v.bucket p)).length ≤ v.remoteFanout)
    (hrecv : stillReceivingBulk (receiving p) input.later input.repairInterval = false) :
    p ∈ v.targets probes input receiving := by
  by_cases hlocal : I.contains v.localNet p = true
  · exact mem_targets_of_local hp hlocal hrecv
  · have hpeer : p ∈ v.remotePeers := by
      refine List.mem_filter.2 ⟨hp, ?_⟩
      rwa [Bool.not_eq_true', ← Bool.not_eq_true]
    have hpicked := mem_remoteTargets input.shuffle_perm hpeer hsmall
    rw [targets, hremote, if_pos rfl]
    refine List.mem_filter.2 ⟨List.mem_dedup.2 (List.mem_append_right _ hpicked), ?_⟩
    rw [hrecv]
    rfl

theorem length_remote_le :
    ((v.targets probes input receiving).filter (!I.contains v.localNet ·)).length ≤
      probes.length + if v.doRemote then (v.nets.length + 1) * v.remoteFanout else 0 := by
  have hsub : (v.targets probes input receiving).filter (!I.contains v.localNet ·) ⊆
      probes ++ if v.doRemote then v.remoteTargets input.shuffle else [] := by
    intro p hp
    obtain ⟨hp, hremote⟩ := List.mem_filter.1 hp
    have hpicked := List.mem_dedup.1 (List.mem_filter.1 hp).1
    rw [List.append_assoc, List.mem_append, List.mem_append] at hpicked
    rcases hpicked with h | h | h
    · exact List.mem_append_left _ h
    · rw [(List.mem_filter.1 h).2] at hremote
      cases hremote
    · exact List.mem_append_right _ h
  have hnodup : (v.targets probes input receiving).Nodup := (List.nodup_dedup _).filter _
  refine ((hnodup.filter _).length_le_of_subset hsub).trans ?_
  rw [List.length_append]
  apply Nat.add_le_add_left
  split
  · exact v.length_remoteTargets_le _
  · exact Nat.le_refl _

end

end RoundView

structure RoundReport (I : Ipnet) where
  view : RoundView I
  receiving : IpAddr → Bool
  targets : List IpAddr

/-- The round was one to send to `p`, had it been a cross-network round. -/
structure RoundReport.Wants (r : RoundReport I) (p : IpAddr) : Prop where
  known : p ∈ r.view.known
  idle : r.receiving p = false
  fits : (r.view.bucketPeers (r.view.bucket p)).length ≤ r.view.remoteFanout

structure RoundReport.Sound (r : RoundReport I) : Prop where
  reaches : ∀ p, r.view.doRemote = true → r.Wants p → p ∈ r.targets
  reaches_local : ∀ p ∈ r.view.known, I.contains r.view.localNet p = true →
    r.receiving p = false → p ∈ r.targets
  remote_le : (r.targets.filter (!I.contains r.view.localNet ·)).length ≤
    maxNets + if r.view.doRemote then (maxNets + 1) * r.view.remoteFanout else 0

/-- A node with the settings its rounds read. `reading` are the rounds that have read the networks
and not yet the local network; `reports` are those that were run, in the order of the counter. -/
structure RoundNode (I : Ipnet) (K V T A : Type) where
  node : MapNode K V IpAddr T A
  topology : Topology I
  remoteInterval : UInt32
  remoteFanout : Nat
  round : UInt32 := 0
  reading : List (List I.Net) := []
  reports : List (RoundReport I) := []

inductive RoundEvent (I : Ipnet) (K V T : Type) where
  | readNets
  | run (reading : Nat) (input : RoundInput)
  | node (event : MapEvent K V IpAddr T)
  | topology (event : TopologyEvent I)
  | setRemoteInterval (interval : UInt32)
  | setRemoteFanout (fanout : Nat)

def MapEvent.isRound : MapEvent K V P T → Bool
  | .round .. => true
  | _ => false

namespace RoundNode

variable {K V T A : Type} [LinearOrder K] [LinearOrder T]
variable (proto : Protocol K V T A) (ports : SendPorts)

def view (s : RoundNode I K V T A) (nets : List I.Net) (now : Nat) : RoundView I where
  nets := nets
  localNet := s.topology.localNet
  remoteInterval := s.remoteInterval
  remoteFanout := s.remoteFanout
  round := s.round
  known := (s.node.getPeers now).1

/-- The probe reads the networks again, and so does not always see those the round read. -/
def report (s : RoundNode I K V T A) (nets : List I.Net) (input : RoundInput) :
    RoundReport I where
  view := s.view nets input.now
  receiving addr :=
    stillReceivingBulk (s.node.receivingBulkFrom.lookup addr) input.later input.repairInterval
  targets := (s.view nets input.now).targets (probeTargets input.draws s.topology.nets) input
    s.node.receivingBulkFrom.lookup

def startReconciliation (s : RoundNode I K V T A) (nets : List I.Net) (input : RoundInput) :
    RoundNode I K V T A :=
  { s with
    node := s.node.startReconciliation proto ports (s.report nets input).targets input.now
    round := s.round + 1
    reports := s.reports ++ [s.report nets input] }

def step (s : RoundNode I K V T A) : RoundEvent I K V T → Option (RoundNode I K V T A)
  | .readNets => some { s with reading := s.reading ++ [s.topology.nets] }
  | .run i input => do
    let nets ← s.reading[i]?
    some ({ s with reading := s.reading.eraseIdx i }.startReconciliation proto ports nets input)
  | .node event => do
    if event.isRound then none
    else
      let out ← s.node.step proto ports event
      some { s with node := out.1 }
  | .topology event => do
    let topology ← s.topology.step event
    some { s with topology := topology }
  | .setRemoteInterval interval => some { s with remoteInterval := interval }
  | .setRemoteFanout fanout => some { s with remoteFanout := fanout }

omit [LinearOrder K] [LinearOrder T] in
theorem sound_report {s : RoundNode I K V T A} (hs : s.topology.Bounded)
    (hnets : nets.length ≤ maxNets) (input : RoundInput) : (s.report nets input).Sound where
  reaches _ hremote hwants :=
    RoundView.mem_targets_of_doRemote hremote hwants.known hwants.fits hwants.idle
  reaches_local _ hp hlocal hidle := RoundView.mem_targets_of_local hp hlocal hidle
  remote_le := by
    refine RoundView.length_remote_le.trans (Nat.add_le_add ?_ ?_)
    · rw [length_probeTargets]
      exact hs.nets_le
    · change (if (s.view nets input.now).doRemote then _ else 0) ≤
        if (s.view nets input.now).doRemote then _ else 0
      split
      · exact Nat.mul_le_mul_right _ (Nat.add_le_add_right hnets 1)
      · exact Nat.le_refl _

structure Sound (s : RoundNode I K V T A) : Prop where
  topology : s.topology.Bounded
  reading : ∀ nets ∈ s.reading, nets.length ≤ maxNets
  counter : s.round = UInt32.ofNat s.reports.length
  numbered : ∀ k r, s.reports[k]? = some r → r.view.round = UInt32.ofNat k
  reports : ∀ r ∈ s.reports, r.Sound

theorem Sound.startReconciliation {s : RoundNode I K V T A} (h : s.Sound)
    (hnets : nets.length ≤ maxNets) (input : RoundInput) :
    (s.startReconciliation proto ports nets input).Sound where
  topology := h.topology
  reading := h.reading
  counter := by
    rw [RoundNode.startReconciliation, List.length_append, UInt32.ofNat_add, h.counter]
    rfl
  numbered := by
    intro k r hr
    rw [RoundNode.startReconciliation, List.getElem?_append] at hr
    split at hr
    · exact h.numbered k r hr
    · next hk =>
      rw [List.getElem?_singleton, Option.ite_none_right_eq_some] at hr
      obtain ⟨hk', hr⟩ := hr
      cases hr
      have hlen : k = s.reports.length := by omega
      rw [hlen]
      exact h.counter
  reports := by
    intro r hr
    rcases List.mem_append.1 hr with hr | hr
    · exact h.reports r hr
    · rw [List.mem_singleton.1 hr]
      exact sound_report h.topology hnets input

theorem Sound.step {s s' : RoundNode I K V T A} (h : s.Sound)
    (hs : s.step proto ports e = some s') : s'.Sound := by
  cases e with
  | readNets =>
    cases hs
    refine ⟨h.topology, ?_, h.counter, h.numbered, h.reports⟩
    intro nets hmem
    rcases List.mem_append.1 hmem with hmem | hmem
    · exact h.reading nets hmem
    · rw [List.mem_singleton.1 hmem]
      exact h.topology.nets_le
  | run i input =>
    rw [RoundNode.step, Option.bind_eq_bind, Option.bind_eq_some_iff] at hs
    obtain ⟨nets, hnets, hs⟩ := hs
    cases hs
    have hread : { s with reading := s.reading.eraseIdx i }.Sound :=
      ⟨h.topology, fun nets hmem => h.reading nets (List.mem_of_mem_eraseIdx hmem), h.counter,
        h.numbered, h.reports⟩
    exact hread.startReconciliation proto ports (h.reading nets (List.mem_of_getElem? hnets)) input
  | node event =>
    rw [RoundNode.step, Option.ite_none_left_eq_some, Option.bind_eq_bind,
      Option.bind_eq_some_iff] at hs
    obtain ⟨_, out, _, hs⟩ := hs
    cases hs
    exact ⟨h.topology, h.reading, h.counter, h.numbered, h.reports⟩
  | topology event =>
    rw [RoundNode.step, Option.bind_eq_bind, Option.bind_eq_some_iff] at hs
    obtain ⟨t, ht, hs⟩ := hs
    cases hs
    exact ⟨h.topology.step ht, h.reading, h.counter, h.numbered, h.reports⟩
  | setRemoteInterval =>
    cases hs
    exact ⟨h.topology, h.reading, h.counter, h.numbered, h.reports⟩
  | setRemoteFanout =>
    cases hs
    exact ⟨h.topology, h.reading, h.counter, h.numbered, h.reports⟩

def start (node : MapNode K V IpAddr T A) (nets : List I.Net) (listenAddr : IpAddr)
    (remoteInterval : UInt32) (remoteFanout : Nat) : RoundNode I K V T A where
  node := node
  topology := .start nets listenAddr
  remoteInterval := remoteInterval
  remoteFanout := remoteFanout

variable {node : MapNode K V IpAddr T A} {nets : List I.Net} {listenAddr : IpAddr}
  {interval : UInt32} {fanout : Nat} {es : List (RoundEvent I K V T)} {s : RoundNode I K V T A}

theorem sound_of_runs (hlen : nets.length ≤ maxNets)
    (h : Runs (step proto ports) (start node nets listenAddr interval fanout) es s) :
    s.Sound := by
  refine h.invariant (fun _ => Sound) ?_ fun _ _ _ _ => Sound.step proto ports
  refine ⟨Topology.bounded_start hlen, List.forall_mem_nil _, rfl, ?_, List.forall_mem_nil _⟩
  intro k r hr
  cases hr

/-- Of `d` consecutive values of a counter that wraps at `w`, one is a multiple of `d`. -/
theorem exists_multiple_in_window (a : Nat) (hpos : 0 < d) (hle : d ≤ w) :
    ∃ i, i < d ∧ (a + i) % w % d = 0 := by
  have hw : 0 < w := hpos.trans_le hle
  have hc := Nat.mod_lt a hw
  have hr := Nat.mod_lt (a % w) hpos
  have hdiv := Nat.div_add_mod (a % w) d
  by_cases hzero : a % w % d = 0
  · exact ⟨0, hpos, hzero⟩
  · -- The next multiple of `d` is near, unless the counter wraps before it gets there.
    by_cases hfit : a % w + (d - a % w % d) < w
    · refine ⟨d - a % w % d, Nat.sub_lt hpos (Nat.pos_of_ne_zero hzero), ?_⟩
      have hnext : a % w + (d - a % w % d) = d * (a % w / d + 1) := by
        rw [Nat.mul_add, Nat.mul_one]
        omega
      rw [← Nat.mod_add_mod, Nat.mod_eq_of_lt hfit, hnext, Nat.mul_mod_right]
    · refine ⟨w - a % w, by omega, ?_⟩
      rw [← Nat.mod_add_mod, Nat.add_sub_cancel' hc.le, Nat.mod_self, Nat.zero_mod]

omit [LinearOrder K] [LinearOrder T] in
theorem Sound.exists_doRemote (h : s.Sound) (hwindow : s.reports = before ++ window ++ after)
    (hsize : window.length = max interval.toNat 1)
    (hinterval : ∀ r ∈ window, r.view.remoteInterval = interval) :
    ∃ r ∈ window, r.view.doRemote = true := by
  have hle : max interval.toNat 1 ≤ 2 ^ 32 := max_le interval.toNat_lt.le (by decide)
  obtain ⟨i, hi, hzero⟩ :=
    exists_multiple_in_window before.length (lt_max_of_lt_right Nat.one_pos) hle
  rw [← hsize] at hi
  have hmem := List.getElem_mem hi
  refine ⟨window[i], hmem, RoundView.doRemote_iff.2 ?_⟩
  have hat : s.reports[before.length + i]? = some window[i] := by
    rw [hwindow, List.append_assoc, List.getElem?_append_right (Nat.le_add_right _ _),
      Nat.add_sub_cancel_left, List.getElem?_append_left hi, List.getElem?_eq_getElem hi]
  rw [h.numbered _ _ hat, hinterval _ hmem, UInt32.toNat_ofNat']
  exact hzero

namespace Small

open Topology.Small (ipnet lan)

def own : IpAddr := Topology.Small.initial.listenAddr

def outside : IpAddr := .v4 0xC0A80001#32

def fresh : MapNode Fleet.Small.Num Fleet.Small.Num IpAddr Fleet.Small.Num UInt8 where
  replay := { policy := ⟨60, 8⟩, enabled := true }
  endpoint := ⟨.forIdentity, .forIdentity Fleet.Small.ports.framing.reassemblyLimits, {}⟩
  coalescer := { window := 0 }

def initial : RoundNode ipnet Fleet.Small.Num Fleet.Small.Num Fleet.Small.Num UInt8 :=
  start fresh [lan] own 2 1

def input : RoundInput where
  draws _ := ⟨7, 7⟩
  shuffle _ peers := peers.reverse
  shuffle_perm _ peers := peers.reverse_perm
  now := 0
  later := 0
  repairInterval := 100

/-- The second round reads the networks while its own is being taken back. -/
def events : List (RoundEvent ipnet Fleet.Small.Num Fleet.Small.Num Fleet.Small.Num) :=
  [.node (.seed outside 0), .node (.seed own 0), .readNets, .run 0 input,
    .topology (.removeNet lan), .readNets, .topology .rederive, .run 0 input]

theorem isSome_events :
    (runAll (step Fleet.Small.protocol Fleet.Small.ports) initial events).isSome = true := by
  decide +kernel

def final : RoundNode ipnet Fleet.Small.Num Fleet.Small.Num Fleet.Small.Num UInt8 :=
  (runAll (step Fleet.Small.protocol Fleet.Small.ports) initial events).get isSome_events

theorem final_reads :
    final.reports.length = max (UInt32.toNat 2) 1 ∧
    (∀ r ∈ final.reports, ipnet.contains lan outside = false ∧ r.view.remoteInterval = 2 ∧
      outside ∈ r.view.known ∧ r.receiving outside = false ∧
      (r.view.bucketPeers (r.view.bucket outside)).length ≤ r.view.remoteFanout) ∧
    ∃ r ∈ final.reports, own ∈ r.view.known ∧ ipnet.contains r.view.localNet own = true ∧
      r.receiving own = false := by
  decide +kernel

theorem runs_events : Runs (step Fleet.Small.protocol Fleet.Small.ports) initial events final :=
  runs_of_runAll (Option.some_get _).symm

end Small

/-- In as many consecutive rounds as the interval says, also where the counter wraps, every known
peer is sent to that is not sending a transfer and whose bucket fits the fan-out: wherever its
address is, and whatever is done to the networks between and during the rounds. -/
theorem known_peer_reached (hlen : nets.length ≤ maxNets)
    (h : Runs (step proto ports) (start node nets listenAddr interval₀ fanout) es s)
    (hwindow : s.reports = before ++ window ++ after)
    (hsize : window.length = max interval.toNat 1)
    (hinterval : ∀ r ∈ window, r.view.remoteInterval = interval)
    (hwants : ∀ r ∈ window, r.Wants p) : ∃ r ∈ window, p ∈ r.targets := by
  have hsound := sound_of_runs proto ports hlen h
  obtain ⟨r, hr, hremote⟩ := hsound.exists_doRemote hwindow hsize hinterval
  have hmem : r ∈ s.reports := by
    rw [hwindow]
    exact List.mem_append_left _ (List.mem_append_right _ hr)
  exact ⟨r, hr, (hsound.reports r hmem).reaches p hremote (hwants r hr)⟩

theorem known_peer_reached_outside :
    (∀ r ∈ Small.final.reports, Topology.Small.ipnet.contains Topology.Small.lan Small.outside = false ∧
      r.view.remoteInterval = 2 ∧ r.Wants Small.outside) ∧
    ∃ r ∈ Small.final.reports, Small.outside ∈ r.targets := by
  obtain ⟨hsize, hview, _⟩ := Small.final_reads
  have hwants : ∀ r ∈ Small.final.reports, r.Wants Small.outside := by
    intro r hr
    obtain ⟨_, _, hknown, hidle, hfits⟩ := hview r hr
    exact ⟨hknown, hidle, hfits⟩
  refine ⟨fun r hr => ⟨(hview r hr).1, (hview r hr).2.1, hwants r hr⟩, ?_⟩
  have hwindow : Small.final.reports = [] ++ Small.final.reports ++ [] :=
    (List.append_nil _).symm
  exact known_peer_reached _ _ (by decide) Small.runs_events hwindow hsize
    (fun r hr => (hview r hr).2.1) hwants

/-- A known peer in the local network is sent to in every round, unless it is sending a transfer;
beyond the local network go the probes and, on a cross-network round, a fan-out for each of the
networks that can be declared and one for the addresses in none. -/
theorem round_targets_bounded (hlen : nets.length ≤ maxNets)
    (h : Runs (step proto ports) (start node nets listenAddr interval fanout) es s)
    (hr : r ∈ s.reports) :
    (∀ p ∈ r.view.known, I.contains r.view.localNet p = true → r.receiving p = false →
      p ∈ r.targets) ∧
    (r.targets.filter (!I.contains r.view.localNet ·)).length ≤
      maxNets + if r.view.doRemote then (maxNets + 1) * r.view.remoteFanout else 0 := by
  have hsound := (sound_of_runs proto ports hlen h).reports r hr
  exact ⟨hsound.reaches_local, hsound.remote_le⟩

theorem round_targets_bounded_outside :
    ∃ r ∈ Small.final.reports, Small.own ∈ r.targets ∧
      (r.targets.filter (!Topology.Small.ipnet.contains r.view.localNet ·)).length ≤
        maxNets + if r.view.doRemote then (maxNets + 1) * r.view.remoteFanout else 0 := by
  obtain ⟨_, _, r, hr, hknown, hlocal, hidle⟩ := Small.final_reads
  have h := round_targets_bounded _ _ (by decide) Small.runs_events hr
  exact ⟨r, hr, h.1 _ hknown hlocal hidle, h.2⟩

end RoundNode

end Reconcile
