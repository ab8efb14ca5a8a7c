import Reconcile.Lib.Transition
import Reconcile.Membership

namespace Reconcile
open Lib
set_option autoImplicit true

inductive MemberPresence where
  | present
  | absent (since misses : Nat)
  deriving DecidableEq

namespace MemberPresence

def markSeen (_ : MemberPresence) : MemberPresence := .present

/-- The miss counter is a `u32`. -/
def markMissed (now : Nat) : MemberPresence → MemberPresence
  | .present => .absent now 1
  | .absent since misses => .absent since ((misses + 1) % 2 ^ 32)

/-- `now` is the reading behind `since.elapsed()`, which saturates at zero. -/
def eligibleForDecommission (missThreshold floor : Nat) (pendingTombstoneAcks : Bool) (now : Nat) :
    MemberPresence → Bool
  | .present => false
  | .absent since misses =>
    if misses < missThreshold then false else !pendingTombstoneAcks || floor ≤ now - since

def Tracks : MemberPresence → List Nat → Prop
  | .present, times => times = []
  | .absent since misses, times => times.head? = some since ∧ misses ≤ times.length

theorem Tracks.markMissed {state : MemberPresence} (h : state.Tracks times) (now : Nat) :
    (state.markMissed now).Tracks (times ++ [now]) := by
  cases state with
  | present =>
    cases h
    exact ⟨rfl, Nat.le_refl 1⟩
  | absent since misses =>
    obtain ⟨hhead, hle⟩ := h
    constructor
    · rw [List.head?_append, hhead, Option.some_or]
    · rw [List.length_append, List.length_singleton]
      -- a wrapped counter only falls further behind
      exact (Nat.mod_le _ _).trans (Nat.succ_le_succ hle)

theorem Tracks.eligible {state : MemberPresence} (h : state.Tracks times)
    (he : state.eligibleForDecommission threshold floor pending now = true) :
    max 1 threshold ≤ times.length ∧
      (pending = true → ∃ first, times.head? = some first ∧ floor ≤ now - first) := by
  cases state with
  | present => cases he
  | absent since misses =>
    obtain ⟨hhead, hle⟩ := h
    simp only [eligibleForDecommission] at he
    split at he
    · cases he
    · rename_i hthreshold
      have hpos : 0 < times.length := by
        cases times with
        | nil => cases hhead
        | cons => exact Nat.succ_pos _
      refine ⟨by omega, ?_⟩
      intro hp
      rw [hp, Bool.not_true, Bool.false_or, decide_eq_true_eq] at he
      exact ⟨since, hhead, he⟩

end MemberPresence

structure DiscoveryConfig where
  missThreshold : Nat := 3
  decommissionFloor : Nat := 600000

/-- The discovery task beside the replica it serves. `toVisit` is what is left of the round's walk
over the members it does not pass over. -/
structure DiscoveryTask (K V P T : Type) where
  replica : MemberReplica K V P T := {}
  presence : HashMap P MemberPresence := ∅
  toVisit : List P := []

/-- Operations of the replica interleave with the rounds. A visit carries the two clock readings of
its miss and of its check. -/
inductive DiscoveryEvent (K V P T : Type) where
  | operation (op : Operation K V P T)
  | failed
  | resolved (addrs : List P)
  | visit (member : P) (missedAt checkedAt : Nat)

variable {K V P T : Type} [DecidableEq K] [DecidableEq P]

namespace DiscoveryEvent

def isResolved : DiscoveryEvent K V P T → Bool
  | .resolved _ => true
  | _ => false

def missTime (member : P) : DiscoveryEvent K V P T → Option Nat
  | .visit m missedAt _ => if m = member then some missedAt else none
  | _ => none

end DiscoveryEvent

def missTimes (member : P) (es : List (DiscoveryEvent K V P T)) : List Nat :=
  es.filterMap (DiscoveryEvent.missTime member)

def successfulRounds (es : List (DiscoveryEvent K V P T)) : Nat :=
  es.countP DiscoveryEvent.isResolved

namespace DiscoveryTask

def refreshPresence (presence : HashMap P MemberPresence) (current : List P) :
    HashMap P MemberPresence :=
  current.foldl
    (fun presence addr => presence.insert addr ((presence.lookup addr).getD .present).markSeen)
    presence

def resolve (own : P) (d : DiscoveryTask K V P T) (addrs : List P) : DiscoveryTask K V P T :=
  let current := addrs.filter (· ≠ own)
  { d with
    presence := refreshPresence d.presence current
    toVisit := d.replica.members.keys.filter fun member => member ≠ own ∧ member ∉ current }

variable [LinearOrder T] (R : Rsos T V) (physical : T → Nat) (own : P) (config : DiscoveryConfig)

def visit (d : DiscoveryTask K V P T) (member : P) (missedAt checkedAt : Nat) :
    Bool × DiscoveryTask K V P T :=
  let rest := d.toVisit.erase member
  match d.presence.lookup member with
  | none => (false, { d with toVisit := rest })
  | some state =>
    let missed := state.markMissed missedAt
    let pending := d.replica.hasPendingTombstoneAcks R member
    if missed.eligibleForDecommission config.missThreshold config.decommissionFloor pending
        checkedAt then
      (true,
        { replica := d.replica.decommissionPeer member
          presence := d.presence.erase member
          toVisit := rest })
    else (false, { d with presence := d.presence.insert member missed, toVisit := rest })

/-- A round starts only after the walk of the one before; the walk takes the members in any order. -/
def step (d : DiscoveryTask K V P T) : DiscoveryEvent K V P T → Option (DiscoveryTask K V P T)
  | .operation op => some { d with replica := d.replica.apply R physical op }
  | .failed => if d.toVisit = [] then some d else none
  | .resolved addrs => if d.toVisit = [] then some (d.resolve own addrs) else none
  | .visit member missedAt checkedAt =>
    if member ∈ d.toVisit then some (d.visit R config member missedAt checkedAt).2 else none

structure Since (member : P) (state : MemberPresence) (due : List P)
    (es : List (DiscoveryEvent K V P T)) : Prop where
  unreported : ∀ addrs, .resolved addrs ∈ es → member ∉ addrs
  tracks : state.Tracks (missTimes member es)
  /-- Misses are of different rounds, and a member still due a visit has one to come. -/
  rounds : (missTimes member es).length + (if member ∈ due then 1 else 0) ≤ successfulRounds es

def Reported (es : List (DiscoveryEvent K V P T)) (member : P) (state : MemberPresence)
    (due : List P) : Prop :=
  ∃ es₁ addrs es₂, es = es₁ ++ .resolved addrs :: es₂ ∧ member ∈ addrs ∧
    Since member state due es₂

structure Follows (es : List (DiscoveryEvent K V P T)) (d : DiscoveryTask K V P T) : Prop where
  own_unknown : d.presence.lookup own = none
  own_unvisited : own ∉ d.toVisit
  nodup : d.toVisit.Nodup
  reported : ∀ member state, d.presence.lookup member = some state →
    Reported es member state d.toVisit

omit [DecidableEq K] [LinearOrder T] in
theorem lookup_refreshPresence (presence : HashMap P MemberPresence) (current : List P)
    (member : P) :
    (refreshPresence presence current).lookup member =
      if member ∈ current then some .present else presence.lookup member := by
  induction current generalizing presence with
  | nil => simp only [refreshPresence, List.foldl_nil, List.not_mem_nil, if_false]
  | cons addr current ih =>
    have h := ih (presence.insert addr ((presence.lookup addr).getD .present).markSeen)
    rw [HashMap.lookup_insert_eq] at h
    refine h.trans ?_
    by_cases hc : member ∈ current
    · rw [if_pos hc, if_pos (List.mem_cons_of_mem _ hc)]
    · by_cases ha : member = addr
      · rw [if_neg hc, if_pos ha, if_pos (ha ▸ List.mem_cons_self)]
        rfl
      · rw [if_neg hc, if_neg ha, if_neg (by simp only [List.mem_cons, ha, hc, or_self,
          not_false_eq_true])]

omit [DecidableEq K] [LinearOrder T] in
theorem missTimes_snoc (member : P) (es : List (DiscoveryEvent K V P T))
    (e : DiscoveryEvent K V P T) :
    missTimes member (es ++ [e]) = missTimes member es ++ (e.missTime member).toList := by
  rw [missTimes, List.filterMap_append, missTimes]
  cases h : e.missTime member with
  | none => rw [List.filterMap_cons_none h, List.filterMap_nil, Option.toList_none]
  | some t => rw [List.filterMap_cons_some h, List.filterMap_nil, Option.toList_some]

omit [DecidableEq K] [DecidableEq P] [LinearOrder T] in
theorem successfulRounds_snoc (es : List (DiscoveryEvent K V P T)) (e : DiscoveryEvent K V P T) :
    successfulRounds (es ++ [e]) = successfulRounds es + if e.isResolved then 1 else 0 := by
  rw [successfulRounds, List.countP_append, List.countP_singleton, successfulRounds]

omit [DecidableEq K] [LinearOrder T] in
theorem Since.snoc {es : List (DiscoveryEvent K V P T)} {e : DiscoveryEvent K V P T}
    (h : Since member state due es) (hun : ∀ addrs, e = .resolved addrs → member ∉ addrs)
    (ht : state'.Tracks (missTimes member es ++ (e.missTime member).toList))
    (hr : (e.missTime member).toList.length + (if member ∈ due' then 1 else 0) ≤
      (if member ∈ due then 1 else 0) + if e.isResolved then 1 else 0) :
    Since member state' due' (es ++ [e]) := by
  constructor
  · intro addrs hin
    rcases List.mem_append.mp hin with hin | hin
    · exact h.unreported addrs hin
    · exact hun addrs (List.mem_singleton.mp hin).symm
  · rw [missTimes_snoc]
    exact ht
  · have hrounds := h.rounds
    rw [missTimes_snoc, successfulRounds_snoc, List.length_append]
    omega

omit [DecidableEq K] [LinearOrder T] in
theorem Since.quiet {es : List (DiscoveryEvent K V P T)} {e : DiscoveryEvent K V P T}
    (h : Since member state due es) (hr : e.isResolved = false) (hm : e.missTime member = none)
    (hdue : member ∈ due' → member ∈ due) : Since member state due' (es ++ [e]) := by
  apply h.snoc
  · rintro addrs rfl
    cases hr
  · rw [hm, Option.toList_none, List.append_nil]
    exact h.tracks
  · rw [hm, hr, Option.toList_none, List.length_nil, Nat.zero_add]
    split
    · rename_i hin
      rw [if_pos (hdue hin)]
      exact Nat.le_add_right _ _
    · exact Nat.zero_le _

omit [DecidableEq K] [LinearOrder T] in
theorem Since.resolved {es : List (DiscoveryEvent K V P T)} (h : Since member state [] es)
    (haddrs : member ∉ addrs) : Since member state due (es ++ [.resolved addrs]) := by
  apply h.snoc
  · rintro _ ⟨⟩
    exact haddrs
  · exact (List.append_nil _).symm ▸ h.tracks
  · simp only [DiscoveryEvent.missTime, DiscoveryEvent.isResolved, Option.toList_none,
      List.length_nil, if_true]
    split <;> omega

omit [DecidableEq K] [LinearOrder T] in
theorem Since.missed {es : List (DiscoveryEvent K V P T)} (h : Since member state due es)
    (hin : member ∈ due) (hout : member ∉ due') :
    Since member (state.markMissed missedAt) due' (es ++ [.visit member missedAt checkedAt]) := by
  have htime : (DiscoveryEvent.visit member missedAt checkedAt : DiscoveryEvent K V P T).missTime
      member = some missedAt := if_pos rfl
  apply h.snoc
  · rintro _ ⟨⟩
  · rw [htime]
    exact h.tracks.markMissed missedAt
  · rw [htime, if_pos hin, if_neg hout]
    exact Nat.le_add_right _ _

omit [DecidableEq K] [LinearOrder T] in
theorem Reported.snoc {es : List (DiscoveryEvent K V P T)} {e : DiscoveryEvent K V P T}
    (h : Reported es member state due)
    (hs : ∀ es₂, Since member state due es₂ → Since member state' due' (es₂ ++ [e])) :
    Reported (es ++ [e]) member state' due' := by
  obtain ⟨es₁, addrs, es₂, rfl, hmem, hold⟩ := h
  refine ⟨es₁, addrs, es₂ ++ [e], ?_, hmem, hs es₂ hold⟩
  rw [List.append_assoc, List.cons_append]

omit [DecidableEq K] [LinearOrder T] in
theorem Follows.resolve {es : List (DiscoveryEvent K V P T)} {d : DiscoveryTask K V P T}
    (h : Follows own es d) (hidle : d.toVisit = []) (addrs : List P) :
    Follows own (es ++ [.resolved addrs]) (d.resolve own addrs) := by
  constructor
  · rw [DiscoveryTask.resolve, lookup_refreshPresence, if_neg]
    · exact h.own_unknown
    · intro hin
      exact of_decide_eq_true (List.mem_filter.mp hin).2 rfl
  · intro hin
    exact (of_decide_eq_true (List.mem_filter.mp hin).2).1 rfl
  · exact (AList.keys_nodup _).filter _
  · intro member state hstate
    rw [DiscoveryTask.resolve, lookup_refreshPresence] at hstate
    split at hstate
    · rename_i hcurrent
      cases hstate
      refine ⟨es, addrs, [], rfl, (List.mem_filter.mp hcurrent).1, ?_⟩
      refine ⟨fun _ hin => absurd hin List.not_mem_nil, rfl, ?_⟩
      rw [if_neg]
      · exact Nat.le_refl 0
      · intro hin
        exact (of_decide_eq_true (List.mem_filter.mp hin).2).2 hcurrent
    · rename_i hcurrent
      have haddrs : member ∉ addrs := by
        intro hin
        refine hcurrent (List.mem_filter.mpr ⟨hin, decide_eq_true ?_⟩)
        rintro rfl
        rw [h.own_unknown] at hstate
        cases hstate
      have hold := h.reported member state hstate
      rw [hidle] at hold
      exact hold.snoc fun es₂ hs => hs.resolved haddrs

theorem Follows.visit {es : List (DiscoveryEvent K V P T)} {d : DiscoveryTask K V P T}
    (h : Follows own es d) (hin : member ∈ d.toVisit) (missedAt checkedAt : Nat) :
    Follows own (es ++ [.visit member missedAt checkedAt])
      (d.visit R config member missedAt checkedAt).2 := by
  -- what is known of the others is as it was
  have hother : ∀ m state, m ≠ member → d.presence.lookup m = some state →
      Reported (es ++ [.visit member missedAt checkedAt]) m state (d.toVisit.erase member) := by
    intro m state hm hstate
    exact (h.reported m state hstate).snoc fun es₂ hs =>
      hs.quiet rfl (if_neg (Ne.symm hm)) List.mem_of_mem_erase
  have hvisited : member ∉ d.toVisit.erase member := h.nodup.not_mem_erase
  have hown : member ≠ own := fun he => h.own_unvisited (he ▸ hin)
  have hrest : own ∉ d.toVisit.erase member := fun ho => h.own_unvisited (List.mem_of_mem_erase ho)
  unfold DiscoveryTask.visit
  split
  · rename_i hnone
    refine ⟨h.own_unknown, hrest, h.nodup.erase _, fun m state hstate => ?_⟩
    refine hother m state ?_ hstate
    rintro rfl
    rw [hnone] at hstate
    cases hstate
  · rename_i state hsome
    simp only
    split
    · refine ⟨?_, hrest, h.nodup.erase _, fun m state' hstate => ?_⟩
      · rw [HashMap.lookup_erase_eq, if_neg hown.symm]
        exact h.own_unknown
      · rw [HashMap.lookup_erase_eq] at hstate
        split at hstate
        · cases hstate
        · rename_i hm
          exact hother m state' hm hstate
    · refine ⟨?_, hrest, h.nodup.erase _, fun m state' hstate => ?_⟩
      · rw [HashMap.lookup_insert_eq, if_neg hown.symm]
        exact h.own_unknown
      · rw [HashMap.lookup_insert_eq] at hstate
        split at hstate
        · rename_i hm
          cases hstate
          cases hm
          exact (h.reported _ state hsome).snoc fun es₂ hs => hs.missed hin hvisited
        · rename_i hm
          exact hother m state' hm hstate

omit [DecidableEq K] [LinearOrder T] in
theorem Follows.quiet {es : List (DiscoveryEvent K V P T)} {d : DiscoveryTask K V P T}
    (h : Follows own es d) {e : DiscoveryEvent K V P T} (hr : e.isResolved = false)
    (hm : ∀ member, e.missTime member = none) (replica : MemberReplica K V P T) :
    Follows own (es ++ [e]) { d with replica := replica } :=
  ⟨h.own_unknown, h.own_unvisited, h.nodup, fun member state hstate =>
    (h.reported member state hstate).snoc fun _ hs => hs.quiet hr (hm member) id⟩

theorem Follows.step {es : List (DiscoveryEvent K V P T)} {d : DiscoveryTask K V P T}
    (h : Follows own es d) {e : DiscoveryEvent K V P T}
    (hs : d.step R physical own config e = some d') : Follows own (es ++ [e]) d' := by
  cases e with
  | operation op =>
    cases hs
    exact h.quiet own rfl (fun _ => rfl) _
  | failed =>
    rw [DiscoveryTask.step, Option.ite_none_right_eq_some] at hs
    cases hs.2
    exact h.quiet own rfl (fun _ => rfl) _
  | resolved addrs =>
    rw [DiscoveryTask.step, Option.ite_none_right_eq_some] at hs
    cases hs.2
    exact h.resolve own hs.1 addrs
  | visit member missedAt checkedAt =>
    rw [DiscoveryTask.step, Option.ite_none_right_eq_some] at hs
    cases hs.2
    exact h.visit R own config hs.1 missedAt checkedAt

theorem follows_run {replica : MemberReplica K V P T}
    (h : Runs (step R physical own config) { replica := replica } es d) : Follows own es d := by
  refine h.invariant (Follows own) ?_ fun _ _ _ _ hf hs => hf.step R physical own config hs
  refine ⟨rfl, List.not_mem_nil, List.nodup_nil, fun member state hstate => ?_⟩
  cases hstate

theorem visit_decommissions {d : DiscoveryTask K V P T}
    (h : (d.visit R config member missedAt checkedAt).1 = true) :
    ∃ state, d.presence.lookup member = some state ∧
      (state.markMissed missedAt).eligibleForDecommission config.missThreshold
        config.decommissionFloor (d.replica.hasPendingTombstoneAcks R member) checkedAt = true := by
  unfold visit at h
  split at h
  · cases h
  · rename_i state hsome
    simp only at h
    split at h
    · rename_i he
      exact ⟨state, hsome, he⟩
    · cases h

/-- A round decommissions a member only if the source reported it in an earlier successful round and
in none since, it was found missing in enough successful rounds since, each another one, and, if it
owes an acknowledgement at the check, the floor has passed since the first of those misses. -/
theorem decommission_safe {replica : MemberReplica K V P T}
    (hrun : Runs (step R physical own config) { replica := replica } es d)
    (hmember : member ∈ d.toVisit)
    (hgone : (d.visit R config member missedAt checkedAt).1 = true) :
    member ≠ own ∧ ∃ es₁ addrs es₂, es = es₁ ++ .resolved addrs :: es₂ ∧ member ∈ addrs ∧
      (∀ addrs', .resolved addrs' ∈ es₂ → member ∉ addrs') ∧
      let misses := missTimes member (es₂ ++ [.visit member missedAt checkedAt])
      max 1 config.missThreshold ≤ misses.length ∧ misses.length ≤ successfulRounds es₂ ∧
        (d.replica.hasPendingTombstoneAcks R member = true →
          ∃ first, misses.head? = some first ∧ config.decommissionFloor ≤ checkedAt - first) := by
  have hf := follows_run R physical own config hrun
  obtain ⟨state, hstate, heligible⟩ := visit_decommissions R config hgone
  obtain ⟨es₁, addrs, es₂, hes, haddrs, hs⟩ := hf.reported member state hstate
  have hmissed : Since member (state.markMissed missedAt) []
      (es₂ ++ [.visit member missedAt checkedAt]) := hs.missed hmember List.not_mem_nil
  obtain ⟨hcount, hfloor⟩ := hmissed.tracks.eligible heligible
  have hrounds := hmissed.rounds
  rw [if_neg List.not_mem_nil, successfulRounds, List.countP_append] at hrounds
  refine ⟨fun he => hf.own_unvisited (he ▸ hmember), es₁, addrs, es₂, hes, haddrs, hs.unreported,
    hcount, hrounds, hfloor⟩

def dated : Rsos Nat Nat where
  toMerge := Merge.keepLocal Nat Nat
  digest _ := 0
  entryDigest e := e.stamp

def owing : MemberReplica Nat Nat Nat Nat :=
  ({} : MemberReplica Nat Nat Nat Nat).apply dated id (.call (.remove 7) [5])
    |>.apply dated id (.join 1)

/-- Peer 1 is reported once, then missed twice with a failed round between. -/
def vanishing : List (DiscoveryEvent Nat Nat Nat Nat) :=
  [.resolved [1, 0], .resolved [], .visit 1 10 10, .failed, .resolved [0], .visit 1 20 20,
    .resolved []]

theorem decommission_safe_vanishing : ∃ d : DiscoveryTask Nat Nat Nat Nat,
    Runs (step dated id 0 {}) { replica := owing } vanishing d ∧
      (d.visit dated {} 1 600010 600010).1 = true ∧
      ∃ es₁ addrs es₂, vanishing = es₁ ++ .resolved addrs :: es₂ ∧ 1 ∈ addrs ∧
        ∃ first, (missTimes 1 (es₂ ++ [.visit 1 600010 600010])).head? = some first ∧
          600000 ≤ 600010 - first := by
  have h : (runAll (step dated id 0 {}) { replica := owing } vanishing).map (fun d =>
      (d.toVisit, (d.visit dated {} 1 600010 600010).1,
        d.replica.hasPendingTombstoneAcks dated 1)) = some ([1], true, true) := by
    decide +kernel
  obtain ⟨d, hd, h⟩ := Option.map_eq_some_iff.1 h
  simp only [Prod.mk.injEq] at h
  obtain ⟨hv, hgone, hpending⟩ := h
  have hrun := runs_of_runAll hd
  obtain ⟨_, es₁, addrs, es₂, hes, hmem, _, _, _, hfloor⟩ :=
    decommission_safe dated id 0 {} hrun (hv ▸ List.mem_singleton_self 1) hgone
  exact ⟨d, hrun, hgone, es₁, addrs, es₂, hes, hmem, hfloor hpending⟩

end DiscoveryTask

end Reconcile
