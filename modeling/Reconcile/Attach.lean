import Reconcile.Durability
import Reconcile.Journaling
import Reconcile.Membership

namespace Reconcile
open Lib
set_option autoImplicit true

inductive PersistenceLoadError where
  | corrupt (err : IoError)
  | retriesExhausted (err : IoError)
  deriving DecidableEq, Repr

def loadRetryAttempts : Nat := 5

/-- The loop around `load`, whose results are given by attempt. Only `InvalidData` is not retried. -/
def loadRetrying (load : Nat → Except IoError S) :
    (retries attempt : Nat) → Except PersistenceLoadError S
  | retries, attempt =>
    match load attempt with
    | .ok state => .ok state
    | .error err =>
      if err.kind = .invalidData then .error (.corrupt err)
      else
        match retries with
        | 0 => .error (.retriesExhausted err)
        | retries + 1 => loadRetrying load retries (attempt + 1)

variable {K V P T : Type} [LinearOrder K] [DecidableEq P]

namespace MemberReplica

def withPersistence (r : MemberReplica K V P T)
    (load : Nat → Except IoError (Option (PersistedState K V P T))) :
    Except PersistenceLoadError (MemberReplica K V P T) :=
  (loadRetrying load (loadRetryAttempts - 1) 0).map fun
    | some state => r.restore state
    | none => r

def causal (r : MemberReplica K V P T) : CausalState K V P T where
  entries := r.map
  members := r.members
  tombstoneAcks := r.tombstoneAcks

def journal (r : MemberReplica K V P T) (durable : PersistedState K V P T) : Journal K V P T where
  live := r.causal
  tracker := r.generations
  durable := durable

def written (calls : List (LocalCall K V × List T)) : MemberReplica K V P T :=
  calls.foldl (fun r c => { r with toReplica := c.1.store r.toReplica c.2 }) {}

end MemberReplica

theorem loadRetrying_eq_ok {load : Nat → Except IoError S}
    (h : loadRetrying load retries attempt = .ok state) : ∃ n, load n = .ok state := by
  induction retries generalizing attempt with
  | zero =>
    rw [loadRetrying] at h
    split at h
    · next hl =>
      cases h
      exact ⟨attempt, hl⟩
    · split at h <;> cases h
  | succ retries ih =>
    rw [loadRetrying] at h
    split at h
    · next hl =>
      cases h
      exact ⟨attempt, hl⟩
    · split at h
      · cases h
      · exact ih h

namespace MemberReplica

theorem exact_written (calls : List (LocalCall K V × List T)) :
    ((written calls : MemberReplica K V P T).journal ⟨[], ∅, ∅⟩).Exact := by
  refine List.foldlRecOn (motive := fun r : MemberReplica K V P T =>
    (r.journal ⟨[], ∅, ∅⟩).Exact) calls _ Journal.exact_fresh ?_
  rintro r h ⟨call, stamps⟩ -
  have hw := call.wrote_store r.toReplica stamps
  have hx := h.mutate (.ofEntries (call.writes r.toReplica stamps))
  have hlive := r.causal.transact_ofEntries (call.writes r.toReplica stamps)
  refine ⟨?_, ?_, trivial⟩
  · rw [journal, hw.journal]
    exact hx.recording
  · have hr := hx.replay
    rw [journal] at hr
    rw [journal, causal, hw.map, hw.journal]
    rw [hlive] at hr
    exact hr

theorem frozen_written (calls : List (LocalCall K V × List T)) :
    (written calls : MemberReplica K V P T).generations.frozen = none := by
  refine List.foldlRecOn (motive := fun r : MemberReplica K V P T =>
    r.generations.frozen = none) calls _ rfl ?_
  rintro r h ⟨call, stamps⟩ -
  rw [(call.wrote_store r.toReplica stamps).journal, GenerationState.frozen_transact]
  exact h

theorem lookup_restore (r : MemberReplica K V P T) (state : PersistedState K V P T) (k : K) :
    (r.restore state).map.lookup k = (state.toCausal.entries.lookup k).or (r.map.lookup k) := by
  have hm : (r.restore state).map =
      state.entries.foldl (fun m kv => m.insert kv.1 kv.2) r.map :=
    Replica.mapInsertAll_map _ state.entries
  rw [hm]
  exact HashMap.lookup_foldl_ofList state.entries r.map k

theorem clean_restore (r : MemberReplica K V P T) (state : PersistedState K V P T) :
    (r.restore state).generations.Clean := ⟨rfl, rfl, rfl⟩

def AllSaved (r : MemberReplica K V P T) (saved : Option (PersistedState K V P T)) : Prop :=
  ∀ state, saved = some state → ∀ k, r.map.contains k = true →
    state.toCausal.entries.contains k = true

/-- Loaded entries hide what is in the map, and nothing else of it is left in the journal. -/
theorem restore_same_iff (r : MemberReplica K V P T) (state : PersistedState K V P T) :
    state.toCausal.Same (r.restore state).causal ↔
      ∀ k, r.map.contains k = true → state.toCausal.entries.contains k = true := by
  have hacks : (r.restore state).tombstoneAcks = state.toCausal.tombstoneAcks := rfl
  have hmembers : (r.restore state).members = state.toCausal.members := rfl
  constructor
  · intro h k hk
    have he := h.entries k
    rw [causal, lookup_restore] at he
    cases hs : state.toCausal.entries.lookup k with
    | none =>
      rw [hs, Option.none_or] at he
      rw [HashMap.contains, ← he] at hk
      cases hk
    | some e => rw [HashMap.contains, hs, Option.isSome_some]
  · intro h
    refine ⟨fun k => ?_, fun p => ?_, fun k p => ?_⟩
    · rw [causal, lookup_restore]
      cases hs : state.toCausal.entries.lookup k with
      | some e => rfl
      | none =>
        cases hr : r.map.lookup k with
        | none => rfl
        | some e =>
          have hc := h k (by rw [HashMap.contains, hr, Option.isSome_some])
          rw [HashMap.contains, hs] at hc
          cases hc
    · rw [causal, hmembers]
    · rw [causal, hacks]

variable {loads : Nat → Except IoError (Option (PersistedState K V P T))}
  {saved : Option (PersistedState K V P T)} {calls : List (LocalCall K V × List T)}
  {r' : MemberReplica K V P T}

theorem withPersistence_eq_ok {r : MemberReplica K V P T}
    (hl : ∀ n st, loads n = .ok st → st = saved) (h : r.withPersistence loads = .ok r') :
    (∃ state, saved = some state ∧ r' = r.restore state) ∨ saved = none ∧ r' = r := by
  rw [withPersistence] at h
  cases hr : loadRetrying loads (loadRetryAttempts - 1) 0 with
  | error err =>
    rw [hr] at h
    cases h
  | ok st =>
    obtain ⟨n, hn⟩ := loadRetrying_eq_ok hr
    cases hl n st hn
    rw [hr] at h
    cases saved with
    | some state =>
      cases h
      exact .inl ⟨state, rfl, rfl⟩
    | none =>
      cases h
      exact .inr ⟨rfl, rfl⟩

theorem recovered_clean {j : Journal K V P T} (hc : j.tracker.Clean) :
    j.recovered.view = j.durable.view := by
  rw [Journal.view_recovered, GenerationState.openPatch, GenerationState.frozenPatch,
    hc.openGeneration, hc.frozen, SnapshotGeneration.patch_default]
  rfl

theorem attached_same_iff (hl : ∀ n st, loads n = .ok st → st = saved)
    (h : (written calls).withPersistence loads = .ok r') :
    (r'.journal (saved.getD ⟨[], ∅, ∅⟩)).recovered.Same r'.causal ↔
      (written calls : MemberReplica K V P T).AllSaved saved := by
  rcases withPersistence_eq_ok hl h with ⟨state, rfl, rfl⟩ | ⟨rfl, rfl⟩
  · have hview : ((written calls).restore state |>.journal state).recovered.view =
        state.toCausal.view := recovered_clean (clean_restore _ state)
    rw [Option.getD_some, CausalState.same_iff, hview, ← CausalState.same_iff, restore_same_iff]
    constructor
    · rintro hk _ ⟨⟩
      exact hk
    · intro hk
      exact hk state rfl
  · refine iff_of_true ?_ nofun
    rw [CausalState.same_iff]
    exact Journal.recovered_view (exact_written calls) (.refl : Journal.Reachable false _ _)

theorem exact_attached (hl : ∀ n st, loads n = .ok st → st = saved)
    (h : (written calls).withPersistence loads = .ok r')
    (hs : (written calls : MemberReplica K V P T).AllSaved saved) :
    (r'.journal (saved.getD ⟨[], ∅, ∅⟩)).Exact := by
  rcases withPersistence_eq_ok hl h with ⟨state, rfl, rfl⟩ | ⟨rfl, rfl⟩
  · refine Journal.exact_of_clean (clean_restore _ state) ?_ rfl
    exact (CausalState.same_iff _ _).1 ((restore_same_iff _ state).2 (hs state rfl))
  · exact exact_written calls

/-- After `with_persistence` the durable state with the journaled generations over it is the live
state exactly when every key written before has an entry in the saved state. Then the next snapshot
that succeeds leaves the live state, and of the writes made meanwhile a leading part, to be loaded. -/
theorem attach_loses_nothing_iff (hl : ∀ n st, loads n = .ok st → st = saved)
    (h : (written calls).withPersistence loads = .ok r') :
    ((r'.journal (saved.getD ⟨[], ∅, ∅⟩)).recovered.Same r'.causal ↔
      (written calls : MemberReplica K V P T).AllSaved saved) ∧
    ((written calls : MemberReplica K V P T).AllSaved saved →
      ∀ (C : Codec K V P T) (d : Disk) A g n att, StoreAt C d A g → A.loaded = saved →
        Node.Reachable .map C (Node.room C) ⟨d, ⟨r'.causal, r'.generations, []⟩, none⟩ n →
        n.attempt = some att → att.begun = (d, ⟨r'.causal, r'.generations, []⟩) →
        att.returned = some .ok →
        ∃ st later more, ((load C).quiet n.disk).1 = .ok (some st) ∧
          n.memory.log = later ++ more ∧ st.toCausal.Same (r'.causal.replay later)) := by
  refine ⟨attached_same_iff hl h, ?_⟩
  intro hs C d A g n att hd hA hr ha hb hok
  have he := exact_attached hl h hs
  have hfrozen : r'.generations.frozen = none := by
    rcases withPersistence_eq_ok hl h with ⟨state, _, rfl⟩ | ⟨_, rfl⟩
    · exact (clean_restore _ state).frozen
    · exact frozen_written calls
  have hinv : Node.Inv false C (r'.journal (saved.getD ⟨[], ∅, ∅⟩)) .map n := by
    refine Node.Inv.run he rfl ?_ (fun _ _ hroom => ⟨hroom, nofun⟩) hr
    refine ⟨A, g, hd, saved.getD ⟨[], ∅, ∅⟩, ?_, .refl⟩
    rw [Image.view, hA]
    cases saved <;> rfl
  obtain ⟨st, later, more, hst, hlog, hsame⟩ := hinv.durable ha hok (.inl (by rw [hb]; exact hfrozen))
  rw [hb] at hlog hsame
  exact ⟨st, later, more, hst, hlog, hsame⟩

def wroteOne : List (LocalCall Nat Nat × List Nat) := [(.insert 1 10, [3])]

def loadsSecond (state : PersistedState Nat Nat Nat Nat) (attempt : Nat) :
    Except IoError (Option (PersistedState Nat Nat Nat Nat)) :=
  if attempt = 0 then .error .notFound else .ok (some state)

theorem loadsSecond_eq_ok {state : PersistedState Nat Nat Nat Nat}
    {st : Option (PersistedState Nat Nat Nat Nat)} (h : loadsSecond state n = .ok st) :
    st = some state := by
  rw [loadsSecond] at h
  split at h
  · cases h
  · exact (Except.ok.inj h).symm

def bothKeys : PersistedState Nat Nat Nat Nat :=
  ⟨[(1, .present 1 9), (2, .present 2 20)], ∅, ∅⟩

theorem attach_loses_nothing_both_keys :
    ∃ r', (written wroteOne).withPersistence (loadsSecond bothKeys) = .ok r' ∧
      (r'.journal bothKeys).recovered.Same r'.causal := by
  have hl : ∀ n st, loadsSecond bothKeys n = .ok st → st = some bothKeys :=
    fun _ _ => loadsSecond_eq_ok
  have ha : (written wroteOne).withPersistence (loadsSecond bothKeys) = .ok _ := rfl
  refine ⟨_, ha, (attach_loses_nothing_iff hl ha).1.2 ?_⟩
  rintro state ⟨⟩ k hk
  have hk : HashMap.contains (AList.insert 1 (Entry.present 3 10) ∅ : HashMap Nat _) k = true := hk
  rw [HashMap.contains_insert, Bool.or_eq_true, decide_eq_true_eq] at hk
  rcases hk with rfl | hk
  · rfl
  · cases hk

/-- A store that holds key 2, left by an earlier process. -/
def storedTwo : Node Nat Nat Nat Nat :=
  Node.blank.run .map Node.C₆₄ ([.mutate [.entry 2 (.present 2 20)], .snapshotNow] ++ Node.finish)

def keyTwo : PersistedState Nat Nat Nat Nat := ⟨[(2, .present 2 20)], ∅, ∅⟩

theorem load_storedTwo : ((load Node.C₆₄).quiet storedTwo.disk).1 = .ok (some keyTwo) := by
  have h : ((load Node.C₆₄).quiet storedTwo.disk).1.toOption.map (·.map fun st =>
      (st.entries, st.members.entries.isEmpty, st.tombstoneAcks.entries.isEmpty)) =
        some (some (keyTwo.entries, true, true)) := by decide +kernel
  rcases hl : ((load Node.C₆₄).quiet storedTwo.disk).1 with err | _ | ⟨entries, members, acks⟩
  · rw [hl] at h
    cases h
  · rw [hl] at h
    cases h
  · rw [hl] at h
    simp only [Except.toOption, Option.map_some, Option.some.injEq, Prod.mk.injEq,
      List.isEmpty_iff] at h
    obtain ⟨rfl, hm, ha⟩ := h
    have hm : members = ∅ := AList.ext hm
    have ha : acks = ∅ := AList.ext ha
    rw [hm, ha]
    rfl

def attachedTwo : MemberReplica Nat Nat Nat Nat := (written wroteOne).restore keyTwo

def savedAgain : Node Nat Nat Nat Nat :=
  Node.run .map Node.C₆₄ ⟨storedTwo.disk, ⟨attachedTwo.causal, attachedTwo.generations, []⟩, none⟩
    (.snapshotNow :: Node.finish)

/-- Key 1 is in the map but in neither the durable state nor the journal: a snapshot that returns
`Ok` does not save it, and a restart does not find it. -/
theorem attach_loses_key :
    ((load Node.C₆₄).quiet storedTwo.disk).1 = .ok (some keyTwo) ∧
    (written wroteOne).withPersistence (fun _ => .ok (some keyTwo)) = .ok attachedTwo ∧
    attachedTwo.map.lookup 1 = some (.present 3 10) ∧
    (attachedTwo.journal keyTwo).recovered.entries.lookup 1 = none ∧
    (∃ att, savedAgain.attempt = some att ∧ att.returned = some .ok) ∧
    ∃ st, ((load Node.C₆₄).quiet savedAgain.disk).1 = .ok (some st) ∧
      st.toCausal.entries.lookup 1 = none := by
  refine ⟨load_storedTwo, rfl, rfl, rfl, ?_, ?_⟩
  · obtain ⟨att, ha, hp⟩ := Node.exists_attempt (n := savedAgain)
      (p := fun att => att.returned == some .ok) (by decide +kernel)
    exact ⟨att, ha, beq_iff_eq.1 hp⟩
  · exact Node.exists_loaded_entry (by decide +kernel)

end MemberReplica

end Reconcile
