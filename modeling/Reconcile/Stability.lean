import Reconcile.Lib.Transition
import Reconcile.SignedReplica

namespace Reconcile
open Lib
set_option autoImplicit true

/-- Signed replicas and every message ever signed. A message stays deliverable, to anyone and any
number of times. -/
structure Cluster (K V P T : Type) where
  nodes : P → SignedReplica K V P T
  sent : List (P × SignedMessage K V T) := []

namespace Cluster

inductive Event (K V P T : Type) where
  | insert (node : P) (key : K) (value : V) (now : T)
  | remove (node : P) (key : K) (now : T)
  | decommission (node peer : P)
  | collect (node : P) (key : K)
  | hello (node : P)
  | update (node : P) (key : K)
  | deliver (node : P) (i : Nat)
  | restart (node : P) (state : SignedReplica K V P T)

variable {K V P T : Type} [LinearOrder K] [DecidableEq P] [LinearOrder T]

def set (c : Cluster K V P T) (p : P) (s : SignedReplica K V P T) : Cluster K V P T :=
  { c with nodes := Function.update c.nodes p s }

/-- One event. A node sends what it retains; every node but the observer may restart, in any
state. -/
def step (R : Rsos T V) (fits : K → Entry T V → Except SignedError Unit) (observer : P)
    (c : Cluster K V P T) : Event K V P T → Option (Cluster K V P T)
  | .insert p key value now =>
    match (c.nodes p).insert fits key value now with
    | .ok s => some (c.set p s)
    | .error _ => some c
  | .remove p key now =>
    match (c.nodes p).remove fits key now with
    | .ok s => some (c.set p s)
    | .error _ => some c
  | .decommission p peer => some (c.set p ((c.nodes p).decommission peer).2)
  | .collect p key => some (c.set p ((c.nodes p).collectIfStable R key).2)
  | .hello p => some { c with sent := (p, .hello) :: c.sent }
  | .update p key =>
    match (c.nodes p).entries.lookup key with
    | some e => some { c with sent := (p, .update key e) :: c.sent }
    | none => none
  | .deliver p i =>
    match c.sent[i]? with
    | some (signer, m) =>
      let handled := (c.nodes p).handleVerifiedMessage R signer m
      some { c.set p handled.2 with sent := handled.1.toList.map (Prod.mk p) ++ c.sent }
    | none => none
  | .restart p s => if p = observer then none else some (c.set p s)

variable {R : Rsos T V} {fits : K → Entry T V → Except SignedError Unit} {observer : P}
  {c₀ c c' : Cluster K V P T}

/-- What one event can do to the observer's acknowledgements and to the messages signed: it adds
an acknowledgement only for a signed one, and signs one only for a tombstone held. -/
structure Sound (R : Rsos T V) (observer : P) (c c' : Cluster K V P T) : Prop where
  stored : ∀ k p v, (c'.nodes observer).acknowledgedVersion k p = some v →
    (c.nodes observer).acknowledgedVersion k p = some v ∨ (p, .ack k v) ∈ c.sent
  signed : ∀ p k v, (p, .ack k v) ∈ c'.sent → (p, .ack k v) ∈ c.sent ∨
    ∃ e, (c'.nodes p).entries.lookup k = some e ∧ R.versionHash e = v
  kept : ∀ m ∈ c.sent, m ∈ c'.sent

theorem Sound.of_set {p : P} {s : SignedReplica K V P T}
    (h : p = observer → ∀ k q v, s.acknowledgedVersion k q = some v →
      (c.nodes p).acknowledgedVersion k q = some v) : Sound R observer c (c.set p s) := by
  constructor
  · intro k q v hv
    by_cases hp : observer = p
    · subst hp
      simp only [set, Function.update_self] at hv
      exact .inl (h rfl k q v hv)
    · simp only [set, Function.update_of_ne hp] at hv
      exact .inl hv
  · intro q k v hq
    exact .inl hq
  · intro m hm
    exact hm

theorem Sound.refl (c : Cluster K V P T) : Sound R observer c c :=
  ⟨fun _ _ _ h => .inl h, fun _ _ _ h => .inl h, fun _ h => h⟩

theorem Sound.of_deliver {p signer : P} {m : SignedMessage K V T} (hm : (signer, m) ∈ c.sent) :
    Sound R observer c { c.set p ((c.nodes p).handleVerifiedMessage R signer m).2 with
      sent := ((c.nodes p).handleVerifiedMessage R signer m).1.toList.map (Prod.mk p) ++ c.sent } := by
  constructor
  · intro k q v hv
    by_cases hp : observer = p
    · subst hp
      simp only [set, Function.update_self] at hv
      rcases SignedReplica.acknowledged_handleVerifiedMessage hv with hv | ⟨rfl, rfl⟩
      · exact .inl hv
      · exact .inr hm
    · simp only [set, Function.update_of_ne hp] at hv
      exact .inl hv
  · intro q k v hq
    rcases List.mem_append.1 hq with hq | hq
    · right
      obtain ⟨reply, hr, he⟩ := List.mem_map.1 hq
      cases he
      obtain ⟨e, he, _, hv⟩ := SignedReplica.handleVerifiedMessage_ack (Option.mem_toList.1 hr)
      refine ⟨e, ?_, hv⟩
      simp only [set, Function.update_self]
      exact he
    · exact .inl hq
  · intro m' hm'
    exact List.mem_append_right _ hm'

theorem sound_step (h : c.step R fits observer ev = some c') : Sound R observer c c' := by
  cases ev with
  | insert p key value now =>
    rw [step] at h
    split at h
    · next s hs =>
      cases h
      refine .of_set fun _ k q v hv => ?_
      rw [(SignedReplica.insert_eq_ok hs).2] at hv
      exact SignedReplica.acknowledged_recordEntry hv
    · cases h
      exact .refl c
  | remove p key now =>
    rw [step] at h
    split at h
    · next s hs =>
      cases h
      refine .of_set fun _ k q v hv => ?_
      rw [(SignedReplica.remove_eq_ok hs).2] at hv
      exact SignedReplica.acknowledged_recordEntry hv
    · cases h
      exact .refl c
  | decommission p peer =>
    cases h
    exact .of_set fun _ k q v hv => SignedReplica.acknowledged_decommission hv
  | collect p key =>
    cases h
    exact .of_set fun _ k q v hv => hv
  | hello p =>
    cases h
    constructor
    · exact fun k q v hv => .inl hv
    · intro q k v hq
      rcases List.mem_cons.1 hq with hq | hq
      · cases hq
      · exact .inl hq
    · exact fun m hm => List.mem_cons_of_mem _ hm
  | update p key =>
    rw [step] at h
    split at h
    · cases h
      constructor
      · exact fun k q v hv => .inl hv
      · intro q k v hq
        rcases List.mem_cons.1 hq with hq | hq
        · cases hq
        · exact .inl hq
      · exact fun m hm => List.mem_cons_of_mem _ hm
    · cases h
  | deliver p i =>
    rw [step] at h
    split at h
    · next signer m hi =>
      cases h
      exact .of_deliver (List.mem_of_getElem? hi)
    · cases h
  | restart p s =>
    rw [step] at h
    split at h
    · cases h
    · next hp =>
      cases h
      exact .of_set fun he => absurd he hp

def Held (R : Rsos T V) (fits : K → Entry T V → Except SignedError Unit) (observer : P)
    (c₀ : Cluster K V P T) (es : List (Event K V P T)) (p : P) (k : K) (v : Nat) : Prop :=
  ∃ es₁ es₂ c e, es = es₁ ++ es₂ ∧ Runs (step R fits observer) c₀ es₁ c ∧
    (c.nodes p).entries.lookup k = some e ∧ R.versionHash e = v

theorem Held.snoc {es : List (Event K V P T)} {p : P} {k : K} {v : Nat}
    (h : Held R fits observer c₀ es p k v) (ev : Event K V P T) :
    Held R fits observer c₀ (es ++ [ev]) p k v := by
  obtain ⟨es₁, es₂, c, e, rfl, hr, he, hv⟩ := h
  exact ⟨es₁, es₂ ++ [ev], c, e, List.append_assoc _ _ _, hr, he, hv⟩

theorem Held.now {es : List (Event K V P T)} {p : P} {k : K} {e : Entry T V}
    (hr : Runs (step R fits observer) c₀ es c) (he : (c.nodes p).entries.lookup k = some e) :
    Held R fits observer c₀ es p k (R.versionHash e) :=
  ⟨es, [], c, e, (List.append_nil es).symm, hr, he, rfl⟩

structure Inv (R : Rsos T V) (fits : K → Entry T V → Except SignedError Unit) (observer : P)
    (c₀ : Cluster K V P T) (es : List (Event K V P T)) (c : Cluster K V P T) : Prop where
  run : Runs (step R fits observer) c₀ es c
  stored : ∀ k p v, (c.nodes observer).acknowledgedVersion k p = some v → (p, .ack k v) ∈ c.sent
  signed : ∀ p k v, (p, .ack k v) ∈ c.sent → Held R fits observer c₀ es p k v

theorem Inv.step {es : List (Event K V P T)} (h : Inv R fits observer c₀ es c)
    (hs : c.step R fits observer ev = some c') : Inv R fits observer c₀ (es ++ [ev]) c' := by
  have hsound := sound_step hs
  have hr := h.run.snoc hs
  constructor
  · exact hr
  · intro k p v hv
    rcases hsound.stored k p v hv with hv | hv
    · exact hsound.kept _ (h.stored k p v hv)
    · exact hsound.kept _ hv
  · intro p k v hv
    rcases hsound.signed p k v hv with hv | ⟨e, he, rfl⟩
    · exact (h.signed p k v hv).snoc ev
    · exact .now hr he

/-- When a tombstone is stable at the observer, every current member has held an entry of the key
with exactly the version of that tombstone. -/
theorem tombstoneStable_sound {es : List (Event K V P T)} {k : K}
    (hsent : c₀.sent = []) (hacks : (c₀.nodes observer).tombstoneAcks = ∅)
    (hr : Runs (step R fits observer) c₀ es c)
    (hs : (c.nodes observer).isTombstoneStable R k = true) :
    ∃ e, (c.nodes observer).entries.lookup k = some e ∧ e.isTombstone = true ∧
      ∀ p ∈ (c.nodes observer).members, Held R fits observer c₀ es p k (R.versionHash e) := by
  have h₀ : Inv R fits observer c₀ [] c₀ := by
    constructor
    · exact .start
    · intro k p v hv
      rw [SignedReplica.acknowledgedVersion, hacks] at hv
      cases hv
    · intro p k v hv
      rw [hsent] at hv
      cases hv
  have h := hr.invariant (Inv R fits observer c₀) h₀ fun _ _ _ _ hi hstep => hi.step hstep
  obtain ⟨e, he, ht, hall⟩ := SignedReplica.isTombstoneStable_eq_true hs
  refine ⟨e, he, ht, ?_⟩
  intro p hp
  exact h.signed p k _ (h.stored k p _ (hall p hp))

def stamped : Rsos Nat Nat where
  toMerge := Merge.keepLocal Nat Nat
  digest _ := 0
  entryDigest e := e.stamp

def pair : Cluster Nat Nat Nat Nat where
  nodes p :=
    { members := HashMap.ofList [(1 - p, ())], authorities := HashMap.ofList [(1 - p, ())] }

def deletion : List (Event Nat Nat Nat Nat) :=
  [.remove 0 7 5, .update 0 7, .deliver 1 0, .deliver 0 0]

theorem tombstoneStable_sound_deletion : ∃ c,
    Runs (step stamped (fun _ _ => .ok ()) 0) pair deletion c ∧ 1 ∈ (c.nodes 0).members ∧
      (c.nodes 0).isTombstoneStable stamped 7 = true ∧
      Held stamped (fun _ _ => .ok ()) 0 pair deletion 1 7 5 := by
  have h : (runAll (step stamped (fun _ _ => .ok ()) 0) pair deletion).map (fun c =>
      ((c.nodes 0).isTombstoneStable stamped 7, (c.nodes 0).members.lookup 1,
        (c.nodes 0).entries.lookup 7)) = some (true, some (), some (.tombstone 5)) := by
    decide +kernel
  obtain ⟨c, hc, h⟩ := Option.map_eq_some_iff.1 h
  simp only [Prod.mk.injEq] at h
  obtain ⟨hs, hm, hl⟩ := h
  have hm : 1 ∈ (c.nodes 0).members := AList.lookup_isSome.1 (by rw [hm]; rfl)
  obtain ⟨e, he, _, hheld⟩ := tombstoneStable_sound rfl rfl (runs_of_runAll hc) hs
  rw [hl] at he
  cases he
  exact ⟨c, runs_of_runAll hc, hm, hs, hheld 1 hm⟩

end Cluster

end Reconcile
