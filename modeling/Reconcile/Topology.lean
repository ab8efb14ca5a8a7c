import Mathlib.Algebra.Order.Ring.Nat
import Reconcile.Lib.Transition

namespace Reconcile
open Lib
set_option autoImplicit true

inductive IpAddr where
  | v4 (addr : BitVec 32)
  | v6 (addr : BitVec 128)
  deriving DecidableEq

def IpAddr.bits : IpAddr → Nat
  | .v4 _ => 32
  | .v6 _ => 128

inductive IpNet (V4 V6 : Type) where
  | v4 (net : V4)
  | v6 (net : V6)
  deriving DecidableEq

/-- What is used of the `ipnet` crate. `IpNet::new` fails on a prefix that is longer than the
address, and on no other. -/
structure Ipnet where
  V4 : Type
  V6 : Type
  decEqV4 : DecidableEq V4
  decEqV6 : DecidableEq V6
  networkV4 : V4 → BitVec 32
  hostmaskV4 : V4 → BitVec 32
  networkV6 : V6 → BitVec 128
  hostmaskV6 : V6 → BitVec 128
  contains : IpNet V4 V6 → IpAddr → Bool
  new (addr : IpAddr) (prefixLen : Nat) (h : prefixLen ≤ addr.bits) : IpNet V4 V6

namespace Ipnet

instance instDecidableEqV4 (I : Ipnet) : DecidableEq I.V4 := I.decEqV4

instance instDecidableEqV6 (I : Ipnet) : DecidableEq I.V6 := I.decEqV6

abbrev Net (I : Ipnet) : Type := IpNet I.V4 I.V6

/-- What the crate documents: the address of a network has no host bits, a network contains the
addresses of its family that agree with it elsewhere, and it contains the address it was made of. -/
structure Lawful (I : Ipnet) : Prop where
  networkV4 : ∀ net, I.networkV4 net &&& I.hostmaskV4 net = 0#32
  networkV6 : ∀ net, I.networkV6 net &&& I.hostmaskV6 net = 0#128
  containsV4 : ∀ net addr, I.contains (.v4 net) addr = true ↔
    ∃ a, addr = .v4 a ∧ a &&& ~~~I.hostmaskV4 net = I.networkV4 net
  containsV6 : ∀ net addr, I.contains (.v6 net) addr = true ↔
    ∃ a, addr = .v6 a ∧ a &&& ~~~I.hostmaskV6 net = I.networkV6 net
  contains_new : ∀ addr prefixLen h, I.contains (I.new addr prefixLen h) addr = true

end Ipnet

namespace Topology.Small

def mask (w n : Nat) : BitVec w := BitVec.allOnes w >>> n

def networkOf (net : BitVec w × Nat) : BitVec w := net.1 &&& ~~~mask w net.2

def inNetwork (net : BitVec w × Nat) (a : BitVec w) : Bool := a &&& ~~~mask w net.2 = networkOf net

abbrev ipnet : Ipnet where
  V4 := BitVec 32 × Nat
  V6 := BitVec 128 × Nat
  decEqV4 := inferInstance
  decEqV6 := inferInstance
  networkV4 := networkOf
  hostmaskV4 net := mask 32 net.2
  networkV6 := networkOf
  hostmaskV6 net := mask 128 net.2
  contains
    | .v4 net, .v4 addr => inNetwork net addr
    | .v6 net, .v6 addr => inNetwork net addr
    | _, _ => false
  new
    | .v4 addr, n, _ => .v4 (addr, n)
    | .v6 addr, n, _ => .v6 (addr, n)

theorem networkOf_and_mask (net : BitVec w × Nat) : networkOf net &&& mask w net.2 = 0#w := by
  rw [networkOf, BitVec.and_assoc, BitVec.and_comm (~~~_), BitVec.and_not_self]
  exact BitVec.and_zero

theorem ipnet_lawful : ipnet.Lawful where
  networkV4 := networkOf_and_mask
  networkV6 := networkOf_and_mask
  containsV4 net addr := by
    cases addr with
    | v4 a => simp [inNetwork]
    | v6 a => simp
  containsV6 net addr := by
    cases addr with
    | v4 a => simp
    | v6 a => simp [inNetwork]
  contains_new addr n _ := by
    cases addr <;> exact decide_eq_true rfl

def lan : ipnet.Net := .v4 (0x0A000000#32, 8)

def wan : ipnet.Net := .v4 (0xC0A80000#32, 16)

end Topology.Small

variable {I : Ipnet}

/-- What the generator yields, at the width that is asked for. -/
structure Draw where
  word : BitVec 32
  wide : BitVec 128

def place (network hostmask random : BitVec w) : BitVec w := network ||| (random &&& hostmask)

def genIpv4 (random : BitVec 32) (network : I.V4) : BitVec 32 :=
  place (I.networkV4 network) (I.hostmaskV4 network) random

def genIpv6 (random : BitVec 128) (network : I.V6) : BitVec 128 :=
  place (I.networkV6 network) (I.hostmaskV6 network) random

def genIp (draw : Draw) : I.Net → IpAddr
  | .v4 network => .v4 (genIpv4 draw.word network)
  | .v6 network => .v6 (genIpv6 draw.wide network)

def probeTargets (draws : Nat → Draw) (nets : List I.Net) : List IpAddr :=
  nets.mapIdx fun i net => genIp (draws i) net

def netOf (nets : List I.Net) (addr : IpAddr) : Option I.Net := nets.find? (I.contains · addr)

def hostNet : IpAddr → I.Net
  | .v4 addr => I.new (.v4 addr) 32 (Nat.le_refl 32)
  | .v6 addr => I.new (.v6 addr) 128 (Nat.le_refl 128)

def deriveLocalNet (nets : List I.Net) (listenAddr : IpAddr) : I.Net :=
  (netOf nets listenAddr).getD (hostNet listenAddr)

/-- The drawn addresses are those that agree with the network outside its host bits. -/
theorem exists_place_iff {network hostmask a : BitVec w} (h : network &&& hostmask = 0#w) :
    (∃ random, place network hostmask random = a) ↔ a &&& ~~~hostmask = network := by
  have hbit (i : Nat) : (network.getLsbD i && hostmask.getLsbD i) = false := by
    rw [← BitVec.getLsbD_and, h, BitVec.getLsbD_zero]
  constructor
  · rintro ⟨random, rfl⟩
    apply BitVec.eq_of_getLsbD_eq
    intro i hi
    have hi' := hbit i
    simp only [place, BitVec.getLsbD_and, BitVec.getLsbD_or, BitVec.getLsbD_not, hi, decide_true,
      Bool.true_and]
    cases hn : network.getLsbD i <;> cases hm : hostmask.getLsbD i <;> simp_all
  · rintro rfl
    refine ⟨a, BitVec.eq_of_getLsbD_eq fun i hi => ?_⟩
    simp only [place, BitVec.getLsbD_and, BitVec.getLsbD_or, BitVec.getLsbD_not, hi, decide_true,
      Bool.true_and]
    cases a.getLsbD i <;> cases hostmask.getLsbD i <;> rfl

/-- The draws reach the addresses of the network and no others. -/
theorem contains_iff_genIp (hI : I.Lawful) (net : I.Net) (addr : IpAddr) :
    I.contains net addr = true ↔ ∃ draw, genIp draw net = addr := by
  cases net with
  | v4 net =>
    rw [hI.containsV4]
    constructor
    · rintro ⟨a, rfl, ha⟩
      obtain ⟨random, hr⟩ := (exists_place_iff (hI.networkV4 net)).2 ha
      exact ⟨⟨random, 0⟩, congrArg IpAddr.v4 hr⟩
    · rintro ⟨draw, rfl⟩
      exact ⟨_, rfl, (exists_place_iff (hI.networkV4 net)).1 ⟨draw.word, rfl⟩⟩
  | v6 net =>
    rw [hI.containsV6]
    constructor
    · rintro ⟨a, rfl, ha⟩
      obtain ⟨random, hr⟩ := (exists_place_iff (hI.networkV6 net)).2 ha
      exact ⟨⟨0, random⟩, congrArg IpAddr.v6 hr⟩
    · rintro ⟨draw, rfl⟩
      exact ⟨_, rfl, (exists_place_iff (hI.networkV6 net)).1 ⟨draw.wide, rfl⟩⟩

theorem contains_iff_genIp_lan :
    ∃ draw, genIp draw Topology.Small.lan = .v4 0x0A000001#32 :=
  (contains_iff_genIp Topology.Small.ipnet_lawful Topology.Small.lan _).1 (by decide)

theorem length_probeTargets (draws : Nat → Draw) (nets : List I.Net) :
    (probeTargets draws nets).length = nets.length := List.length_mapIdx

theorem deriveLocalNet_contains (hI : I.Lawful) (nets : List I.Net) (listenAddr : IpAddr) :
    I.contains (deriveLocalNet nets listenAddr) listenAddr = true := by
  rw [deriveLocalNet]
  cases h : netOf nets listenAddr with
  | none => cases listenAddr <;> exact hI.contains_new _ _ _
  | some net =>
    rw [netOf, List.find?_eq_some_iff_append] at h
    exact h.1

def maxNets : Nat := 8

inductive NetsError where
  | tooManyNets
  deriving DecidableEq

structure SetNets (I : Ipnet) where
  nets : List I.Net
  wroteLocal : Bool
  deriving DecidableEq

/-- The declared networks and the local network, each behind a lock of its own. -/
structure Topology (I : Ipnet) where
  listenAddr : IpAddr
  nets : List I.Net
  localNet : I.Net
  /-- `add_net` or `remove_net` holds the lock of the networks. -/
  locked : Bool := false
  setting : List (SetNets I) := []
  deriving DecidableEq

inductive TopologyEvent (I : Ipnet) where
  | setNets (nets : List I.Net)
  | writeLocal (call : Nat)
  | installNets (call : Nat)
  | addNet (net : I.Net)
  | removeNet (net : I.Net)
  | rederive

namespace Topology

def start (nets : List I.Net) (listenAddr : IpAddr) : Topology I where
  listenAddr := listenAddr
  nets := nets
  localNet := deriveLocalNet nets listenAddr

def setNets (t : Topology I) (nets : List I.Net) : Except NetsError (Topology I) :=
  if maxNets < nets.length then .error .tooManyNets
  else .ok { t with setting := t.setting ++ [⟨nets, false⟩] }

/-- `add_net` up to its write of the local network; it still holds the lock then. -/
def addNet (t : Topology I) (net : I.Net) : Bool × Topology I :=
  if net ∈ t.nets then (true, t)
  else if maxNets ≤ t.nets.length then (false, t)
  else (true, { t with nets := t.nets ++ [net], locked := true })

def removeNet (t : Topology I) (net : I.Net) : Bool × Topology I :=
  let kept := t.nets.filter (· ≠ net)
  let removed := kept.length ≠ t.nets.length
  (removed, { t with nets := kept, locked := removed })

/-- A call waits while the networks are locked. -/
def step (t : Topology I) : TopologyEvent I → Option (Topology I)
  | .setNets nets => some (match t.setNets nets with | .ok t' => t' | .error _ => t)
  | .writeLocal i => do
    let call ← t.setting[i]?
    if call.wroteLocal then none
    else some { t with
      localNet := deriveLocalNet call.nets t.listenAddr
      setting := t.setting.set i { call with wroteLocal := true } }
  | .installNets i => do
    let call ← t.setting[i]?
    if !call.wroteLocal || t.locked then none
    else some { t with nets := call.nets, setting := t.setting.eraseIdx i }
  | .addNet net => if t.locked then none else some (t.addNet net).2
  | .removeNet net => if t.locked then none else some (t.removeNet net).2
  | .rederive =>
    if t.locked then
      some { t with localNet := deriveLocalNet t.nets t.listenAddr, locked := false }
    else none

def idle (t : Topology I) : Bool := !t.locked && t.setting.isEmpty

/-- A call of `set_nets` overlaps no other call. -/
def alone (t : Topology I) : TopologyEvent I → Bool
  | .setNets _ => t.idle
  | .addNet _ | .removeNet _ => t.setting.isEmpty
  | _ => true

inductive Step (t : Topology I) : TopologyEvent I → Topology I → Prop
  | refused : Step t e t
  | begun (hlen : given.length ≤ maxNets) :
    Step t (.setNets given) { t with setting := t.setting ++ [⟨given, false⟩] }
  | wroteLocal (hcall : t.setting[i]? = some ⟨given, false⟩) :
    Step t (.writeLocal i) { t with
      localNet := deriveLocalNet given t.listenAddr
      setting := t.setting.set i ⟨given, true⟩ }
  | installed (hcall : t.setting[i]? = some ⟨given, true⟩) (hfree : t.locked = false) :
    Step t (.installNets i) { t with nets := given, setting := t.setting.eraseIdx i }
  | changed (he : (∃ net, e = .addNet net) ∨ ∃ net, e = .removeNet net)
    (hfree : t.locked = false) (hlen : left.length ≤ max t.nets.length maxNets) :
    Step t e { t with nets := left, locked := true }
  | rederived (hlocked : t.locked = true) :
    Step t .rederive { t with localNet := deriveLocalNet t.nets t.listenAddr, locked := false }

theorem step_cases {t t' : Topology I} (h : t.step e = some t') : Step t e t' := by
  cases e with
  | setNets nets =>
    rw [step, setNets] at h
    cases h
    by_cases hlen : maxNets < nets.length
    · rw [if_pos hlen]
      exact .refused
    · rw [if_neg hlen]
      exact .begun (Nat.le_of_not_lt hlen)
  | writeLocal i =>
    rw [step, Option.bind_eq_bind, Option.bind_eq_some_iff] at h
    obtain ⟨⟨nets, wrote⟩, hcall, h⟩ := h
    cases wrote with
    | true => cases h
    | false =>
      cases h
      exact .wroteLocal hcall
  | installNets i =>
    rw [step, Option.bind_eq_bind, Option.bind_eq_some_iff] at h
    obtain ⟨⟨nets, wrote⟩, hcall, h⟩ := h
    rw [Option.ite_none_left_eq_some, Bool.or_eq_true, not_or] at h
    obtain ⟨⟨hwrote, hfree⟩, h⟩ := h
    cases h
    cases wrote with
    | false => exact absurd rfl hwrote
    | true => exact .installed hcall (Bool.eq_false_iff.2 hfree)
  | addNet net =>
    rw [step, Option.ite_none_left_eq_some] at h
    obtain ⟨hfree, h⟩ := h
    rw [addNet] at h
    split at h
    · cases h
      exact .refused
    · split at h
      · cases h
        exact .refused
      · next hroom =>
        cases h
        refine .changed (.inl ⟨net, rfl⟩) (Bool.eq_false_iff.2 hfree) (le_max_of_le_right ?_)
        rw [List.length_append]
        exact Nat.lt_of_not_le hroom
  | removeNet net =>
    rw [step, Option.ite_none_left_eq_some] at h
    obtain ⟨hfree, h⟩ := h
    rw [Bool.not_eq_true] at hfree
    cases h
    rw [removeNet]
    by_cases hkept : (t.nets.filter (· ≠ net)).length = t.nets.length
    · have hsame := (List.filter_sublist (l := t.nets)).eq_of_length hkept
      simp only [hsame, ne_eq, not_true_eq_false, decide_false, ← hfree]
      exact .refused
    · simp only [ne_eq, hkept, not_false_eq_true, decide_true]
      exact .changed (.inr ⟨net, rfl⟩) hfree (le_max_of_le_left (List.length_filter_le _ _))
  | rederive =>
    rw [step, Option.ite_none_right_eq_some] at h
    obtain ⟨hlocked, h⟩ := h
    cases h
    exact .rederived hlocked

structure Bounded (t : Topology I) : Prop where
  nets_le : t.nets.length ≤ maxNets
  setting_le : ∀ call ∈ t.setting, call.nets.length ≤ maxNets
  derived : ∃ nets, t.localNet = deriveLocalNet nets t.listenAddr

theorem Bounded.step {t t' : Topology I} (h : t.Bounded) (hs : t.step e = some t') :
    t'.Bounded := by
  cases step_cases hs with
  | refused => exact h
  | begun hlen =>
    refine ⟨h.nets_le, ?_, h.derived⟩
    intro call hcall
    rcases List.mem_append.1 hcall with hcall | hcall
    · exact h.setting_le call hcall
    · rw [List.mem_singleton.1 hcall]
      exact hlen
  | wroteLocal hcall =>
    refine ⟨h.nets_le, ?_, ⟨_, rfl⟩⟩
    intro call hmem
    have hgiven := h.setting_le _ (List.mem_of_getElem? hcall)
    rcases List.mem_or_eq_of_mem_set hmem with hmem | rfl
    · exact h.setting_le call hmem
    · exact hgiven
  | installed hcall =>
    refine ⟨h.setting_le _ (List.mem_of_getElem? hcall), ?_, h.derived⟩
    intro call hmem
    exact h.setting_le call (List.mem_of_mem_eraseIdx hmem)
  | changed _ _ hlen => exact ⟨hlen.trans (max_le h.nets_le le_rfl), h.setting_le, h.derived⟩
  | rederived => exact ⟨h.nets_le, h.setting_le, ⟨_, rfl⟩⟩

variable {own : IpAddr} {t : Topology I} {es : List (TopologyEvent I)}

theorem bounded_start {given : List I.Net} (hlen : given.length ≤ maxNets) : (start given own).Bounded :=
  ⟨hlen, List.forall_mem_nil _, ⟨given, rfl⟩⟩

theorem bounded_of_runs {given : List I.Net} (hlen : given.length ≤ maxNets)
    (h : Runs step (start given own) es t) : t.Bounded :=
  h.invariant (fun _ => Bounded) (bounded_start hlen) fun _ _ _ _ => Bounded.step

/-- Where the two locks stand when no call of `set_nets` overlaps another call. -/
inductive Phase (t : Topology I) : Prop
  | idle (hfree : t.locked = false) (hset : t.setting = [])
    (hlocal : t.localNet = deriveLocalNet t.nets t.listenAddr)
  | changing (hlocked : t.locked = true) (hset : t.setting = [])
  | begun (hfree : t.locked = false) (hset : t.setting = [⟨given, false⟩])
  | installing (hfree : t.locked = false) (hset : t.setting = [⟨given, true⟩])
    (hlocal : t.localNet = deriveLocalNet given t.listenAddr)

theorem idle_iff {t : Topology I} : t.idle = true ↔ t.locked = false ∧ t.setting = [] := by
  rw [Topology.idle, Bool.and_eq_true, Bool.not_eq_true', List.isEmpty_iff]

theorem Phase.step {t t' : Topology I} (h : t.Phase) (hs : t.step e = some t')
    (halone : t.alone e = true) : t'.Phase := by
  cases step_cases hs with
  | refused => exact h
  | begun =>
    obtain ⟨hfree, hset⟩ := idle_iff.1 halone
    exact .begun hfree (congrArg (· ++ _) hset)
  | @wroteLocal i given hcall =>
    -- The call found at `i` has not written, so the phase is the one before its write.
    cases h with
    | idle _ hset => simp [hset] at hcall
    | changing _ hset => simp [hset] at hcall
    | begun hfree hset =>
      rw [hset, List.getElem?_singleton, Option.ite_none_right_eq_some] at hcall
      obtain ⟨rfl, hcall⟩ := hcall
      cases hcall
      exact .installing hfree (congrArg (List.set · 0 _) hset) rfl
    | installing _ hset => simp [hset, List.getElem?_singleton] at hcall
  | @installed i given hcall hfree =>
    cases h with
    | idle _ hset => simp [hset] at hcall
    | changing _ hset => simp [hset] at hcall
    | begun _ hset => simp [hset, List.getElem?_singleton] at hcall
    | installing _ hset hlocal =>
      rw [hset, List.getElem?_singleton, Option.ite_none_right_eq_some] at hcall
      obtain ⟨rfl, hcall⟩ := hcall
      cases hcall
      exact .idle hfree (congrArg (List.eraseIdx · 0) hset) hlocal
  | changed he =>
    have hset : t.setting = [] := by
      rcases he with ⟨net, rfl⟩ | ⟨net, rfl⟩ <;> exact List.isEmpty_iff.1 halone
    exact .changing rfl hset
  | rederived hlocked =>
    cases h with
    | idle hfree => rw [hlocked] at hfree; cases hfree
    | changing _ hset => exact .idle rfl hset rfl
    | begun hfree => rw [hlocked] at hfree; cases hfree
    | installing hfree => rw [hlocked] at hfree; cases hfree

namespace Small

def initial : Topology ipnet := start [lan] (.v4 0x0A000001#32)

def events : List (TopologyEvent ipnet) :=
  [.setNets [wan], .writeLocal 0, .installNets 0, .addNet lan, .rederive]

def final : Topology ipnet where
  listenAddr := initial.listenAddr
  nets := [wan, lan]
  localNet := lan

theorem runs_events : Runs step initial events final := runs_of_runAll (by decide)

end Small

/-- However calls overlap, the cap on declared networks holds and the node is local to itself. -/
theorem nets_capped {given : List I.Net} (hI : I.Lawful) (hlen : given.length ≤ maxNets)
    (h : Runs step (start given own) es t) :
    t.nets.length ≤ maxNets ∧ I.contains t.localNet t.listenAddr = true := by
  have hbounded := bounded_of_runs hlen h
  obtain ⟨nets, hlocal⟩ := hbounded.derived
  rw [hlocal]
  exact ⟨hbounded.nets_le, deriveLocalNet_contains hI nets t.listenAddr⟩

theorem nets_capped_events :
    Small.final.nets.length ≤ maxNets ∧
      Small.ipnet.contains Small.final.localNet Small.final.listenAddr = true :=
  nets_capped Small.ipnet_lawful (by decide) Small.runs_events

/-- Once no call is in progress the local network is the one the declared networks give, if no
call of `set_nets` overlapped another call. -/
theorem local_derived {given : List I.Net} (h : Runs step (start given own) es t)
    (halone : EachStep step (fun t e _ => t.alone e = true) (start given own) es)
    (hidle : t.idle = true) : t.localNet = deriveLocalNet t.nets t.listenAddr := by
  obtain ⟨hfree, hset⟩ := idle_iff.1 hidle
  have hphase : t.Phase := h.invariant_of (fun _ => Phase) (.idle rfl rfl rfl)
    (fun _ _ _ _ => Phase.step) halone
  cases hphase with
  | idle _ _ hlocal => exact hlocal
  | changing hlocked => rw [hfree] at hlocked; cases hlocked
  | begun _ hset' => rw [hset] at hset'; cases hset'
  | installing _ hset' => rw [hset] at hset'; cases hset'

theorem local_derived_events :
    Small.final.localNet = deriveLocalNet Small.final.nets Small.final.listenAddr :=
  local_derived Small.runs_events (eachStep_of_checkAll (by decide)) (by decide)

/-- Two overlapping calls of `set_nets` can leave the networks of one and the local network of
the other, with no call left to mend it. -/
theorem overlap_mixes (t : Topology I) {a b : List I.Net} (hidle : t.idle = true)
    (ha : a.length ≤ maxNets) (hb : b.length ≤ maxNets) :
    let t' : Topology I := { t with nets := a, localNet := deriveLocalNet b t.listenAddr }
    Runs step t
      [.setNets a, .setNets b, .writeLocal 0, .writeLocal 1, .installNets 1, .installNets 0] t' ∧
      t'.idle = true := by
  obtain ⟨hfree, hset⟩ := idle_iff.1 hidle
  refine ⟨runs_of_runAll ?_, hidle⟩
  cases t with
  | mk listenAddr nets localNet locked setting =>
    cases hfree
    cases hset
    simp [runAll, step, setNets, Nat.not_lt.2 ha, Nat.not_lt.2 hb]

theorem overlap_mixes_lan_wan :
    let t' : Topology Small.ipnet :=
      { Small.initial with nets := [Small.wan], localNet := Small.lan }
    Runs step Small.initial
      [.setNets [Small.wan], .setNets [Small.lan], .writeLocal 0, .writeLocal 1, .installNets 1,
        .installNets 0] t' ∧
      t'.idle = true ∧ deriveLocalNet [Small.wan] Small.initial.listenAddr ≠ Small.lan := by
  obtain ⟨hrun, hidle⟩ := overlap_mixes (a := [Small.wan]) (b := [Small.lan]) Small.initial
    (by decide) (by decide) (by decide)
  exact ⟨hrun, hidle, by decide⟩

end Topology

end Reconcile
