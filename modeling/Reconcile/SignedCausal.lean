import Reconcile.Clock
import Reconcile.SignedReplica

namespace Reconcile
open Lib
set_option autoImplicit true

structure SignedRoles (P : Type) where
  authorities : HashSet P
  readers : HashSet P := ∅
  readOnly : Bool := false

inductive RestoreError where
  | rosterDiffers
  | foreignBlockers
  | duplicateKeys
  deriving DecidableEq, Repr

inductive LocalWrite (K V : Type) where
  | insert (key : K) (value : V)
  | remove (key : K)
  deriving DecidableEq

def LocalWrite.key : LocalWrite K V → K
  | .insert key _ => key
  | .remove key => key

def LocalWrite.entry (stamp : T) : LocalWrite K V → Entry T V
  | .insert _ value => .present stamp value
  | .remove _ => .tombstone stamp

@[simp] theorem LocalWrite.stamp_entry (w : LocalWrite K V) (stamp : T) :
    (w.entry stamp).stamp = stamp := by
  cases w <;> rfl

/-- What may happen to the causal state; `pt` is the wall clock's reading at the clock operation.
A snapshot attempt leaves nothing changed but the journal. -/
inductive CausalEvent (K V P : Type) where
  | write (w : LocalWrite K V) (pt : PhysicalTime)
  | message (peer : P) (m : SignedMessage K V Timestamp) (pt : PhysicalTime)
  | decommission (peer : P)
  | collect (key : K)
  | journal (generations : GenerationState K V P Timestamp)

structure SignedCausal (K V P : Type) extends SignedReplica K V P Timestamp where
  clock : HlcClock

variable {K V P : Type} [LinearOrder K] [DecidableEq P]

namespace SignedRoles

def members (roles : SignedRoles P) : HashSet P :=
  if roles.readOnly then ∅ else roles.authorities

def differs (roles : SignedRoles P) (saved : PersistedState K V P Timestamp) : Bool :=
  if roles.readOnly then
    !saved.members.entries.isEmpty || !saved.tombstoneAcks.entries.isEmpty
  else
    !(saved.members.keys.all roles.authorities.contains &&
      roles.authorities.keys.all saved.members.contains)

def coversBlockers (roles : SignedRoles P) (saved : PersistedState K V P Timestamp) : Bool :=
  saved.members.keys.all roles.authorities.contains &&
    saved.tombstoneAcks.toList.all fun acks => acks.2.keys.all roles.authorities.contains

end SignedRoles

namespace SignedCausal

variable (H : HlcArithmetic)

/-- The constructor's loop over the saved entries; `readings` are the wall clock's, by iteration. -/
def loadEntries (readings : Nat → PhysicalTime) :
    Nat → HlcClock → HashMap K (Entry Timestamp V) → List (K × Entry Timestamp V) →
      Except RestoreError (HashMap K (Entry Timestamp V) × HlcClock)
  | _, clock, entries, [] => .ok (entries, clock)
  | i, clock, entries, (key, entry) :: saved =>
    if entries.contains key then .error .duplicateKeys
    else loadEntries readings (i + 1) (clock.observeTrusted H entry.stamp (readings i))
      (entries.insert key entry) saved

def loadPasses (readings : Nat → PhysicalTime) : Nat → HlcClock → List (K × Entry Timestamp V) → Bool
  | _, _, [] => true
  | i, clock, (_, entry) :: saved =>
    clock.passes entry.stamp.hlc &&
      loadPasses readings (i + 1) (clock.observeTrusted H entry.stamp (readings i)) saved

/-- The causal half of the constructor, on what the backend loaded. Without a snapshot the roster
is journaled, so that the first save makes it durable. -/
def restore (roles : SignedRoles P) (clock : HlcClock) (readings : Nat → PhysicalTime)
    (loaded : Option (PersistedState K V P Timestamp)) :
    Except RestoreError (SignedCausal K V P) :=
  let saved := loaded.getD ⟨[], ∅, ∅⟩
  if loaded.isSome && roles.differs saved then .error .rosterDiffers
  else if !roles.coversBlockers saved then .error .foreignBlockers
  else
    (loadEntries H readings 0 clock ∅ saved.entries).map fun kept =>
      { entries := kept.1
        members := roles.members
        tombstoneAcks := saved.tombstoneAcks
        generations :=
          if loaded.isSome then {}
          else GenerationState.transact {} (roles.members.keys.map (.member · true))
        authorities := roles.authorities
        readers := roles.readers
        readOnly := roles.readOnly
        clock := kept.2 }

variable (fits : K → Entry Timestamp V → Except SignedError Unit)

/-- A read-only node fails before it reads its clock; a record that does not fit, after. -/
def insert (s : SignedCausal K V P) (key : K) (value : V) (pt : PhysicalTime) :
    Except SignedError Unit × SignedCausal K V P :=
  if s.readOnly then (.error .readOnlyWrite, s)
  else
    let reading := s.clock.now H pt
    match s.toSignedReplica.insert fits key value reading.1 with
    | .ok r => (.ok (), ⟨r, reading.2⟩)
    | .error err => (.error err, { s with clock := reading.2 })

def remove (s : SignedCausal K V P) (key : K) (pt : PhysicalTime) :
    Except SignedError Unit × SignedCausal K V P :=
  if s.readOnly then (.error .readOnlyDelete, s)
  else
    let reading := s.clock.now H pt
    match s.toSignedReplica.remove fits key reading.1 with
    | .ok r => (.ok (), ⟨r, reading.2⟩)
    | .error err => (.error err, { s with clock := reading.2 })

def write (s : SignedCausal K V P) (w : LocalWrite K V) (pt : PhysicalTime) :
    Except SignedError Unit × SignedCausal K V P :=
  match w with
  | .insert key value => s.insert H fits key value pt
  | .remove key => s.remove H fits key pt

variable (R : Rsos Timestamp V)

def observed (s : SignedCausal K V P) (peer : P) (m : SignedMessage K V Timestamp)
    (pt : PhysicalTime) : HlcClock :=
  match m with
  | .update _ entry =>
    if s.authorities.contains peer then s.clock.observe H entry.stamp pt else s.clock
  | _ => s.clock

def handleVerifiedMessage (s : SignedCausal K V P) (peer : P) (m : SignedMessage K V Timestamp)
    (pt : PhysicalTime) : Option (SignedMessage K V Timestamp) × SignedCausal K V P :=
  let handled := s.toSignedReplica.handleVerifiedMessage R peer m
  (handled.1, ⟨handled.2, s.observed H peer m pt⟩)

def step (s : SignedCausal K V P) : CausalEvent K V P → SignedCausal K V P
  | .write w pt => (s.write H fits w pt).2
  | .message peer m pt => (s.handleVerifiedMessage H R peer m pt).2
  | .decommission peer => { s with toSignedReplica := (s.toSignedReplica.decommission peer).2 }
  | .collect key => { s with toSignedReplica := (s.toSignedReplica.collectIfStable R key).2 }
  | .journal generations => { s with generations := generations }

variable {H} {fits} {R} {s s' : SignedCausal K V P}

/-- A local write: it failed and at most the clock moved, or its entry fits and is stored with the
stamp the clock minted for it. -/
theorem write_cases (s : SignedCausal K V P) (w : LocalWrite K V) (pt : PhysicalTime) :
    (∃ err, s.write H fits w pt = (.error err, s)) ∨
    (∃ err, s.write H fits w pt = (.error err, { s with clock := (s.clock.now H pt).2 })) ∨
    fits w.key (w.entry (s.clock.now H pt).1) = .ok () ∧ s.write H fits w pt =
      (.ok (), ⟨s.recordEntry w.key (w.entry (s.clock.now H pt).1), (s.clock.now H pt).2⟩) := by
  cases w with
  | insert key value =>
    rw [write, insert]
    split
    · exact .inl ⟨_, rfl⟩
    · simp only
      cases hw : s.toSignedReplica.insert fits key value (s.clock.now H pt).1 with
      | ok r =>
        obtain ⟨hfits, rfl⟩ := SignedReplica.insert_eq_ok hw
        exact .inr (.inr ⟨hfits, rfl⟩)
      | error err => exact .inr (.inl ⟨err, rfl⟩)
  | remove key =>
    rw [write, remove]
    split
    · exact .inl ⟨_, rfl⟩
    · simp only
      cases hw : s.toSignedReplica.remove fits key (s.clock.now H pt).1 with
      | ok r =>
        obtain ⟨hfits, rfl⟩ := SignedReplica.remove_eq_ok hw
        exact .inr (.inr ⟨hfits, rfl⟩)
      | error err => exact .inr (.inl ⟨err, rfl⟩)

theorem restore_eq_ok {roles : SignedRoles P} {clock : HlcClock} {readings : Nat → PhysicalTime}
    {loaded : Option (PersistedState K V P Timestamp)}
    (h : restore H roles clock readings loaded = .ok s) :
    ∃ entries clock', loadEntries H readings 0 clock ∅ (loaded.getD ⟨[], ∅, ∅⟩).entries =
        .ok (entries, clock') ∧
      (loaded.isSome = true → roles.differs (loaded.getD ⟨[], ∅, ∅⟩) = false) ∧
      roles.coversBlockers (loaded.getD ⟨[], ∅, ∅⟩) = true ∧
      s = { entries := entries
            members := roles.members
            tombstoneAcks := (loaded.getD ⟨[], ∅, ∅⟩).tombstoneAcks
            generations :=
              if loaded.isSome then {}
              else GenerationState.transact {} (roles.members.keys.map (.member · true))
            authorities := roles.authorities
            readers := roles.readers
            readOnly := roles.readOnly
            clock := clock' } := by
  rw [restore] at h
  split at h
  · cases h
  · next hd =>
    split at h
    · cases h
    · next hb =>
      cases hl : loadEntries H readings 0 clock ∅ (loaded.getD ⟨[], ∅, ∅⟩).entries with
      | error err =>
        rw [hl] at h
        cases h
      | ok kept =>
        rw [hl] at h
        cases h
        refine ⟨kept.1, kept.2, rfl, ?_, ?_, rfl⟩
        · intro hsome
          simpa [hsome] using hd
        · simpa using hb

theorem loadEntries_eq_ok {saved : List (K × Entry Timestamp V)} {entries kept : HashMap K _}
    {c c' : HlcClock} (h : loadEntries H readings i c entries saved = .ok (kept, c')) :
    (saved.map Prod.fst).Nodup ∧ (∀ k ∈ saved.map Prod.fst, entries.contains k = false) ∧
      kept = saved.foldl (fun m kv => m.insert kv.1 kv.2) entries := by
  induction saved generalizing i c entries with
  | nil =>
    cases h
    exact ⟨.nil, nofun, rfl⟩
  | cons ke saved ih =>
    obtain ⟨key, entry⟩ := ke
    rw [loadEntries] at h
    split at h
    · cases h
    · next hkey =>
      obtain ⟨hn, hd, hkept⟩ := ih h
      simp only [HashMap.contains_insert, Bool.or_eq_false_iff, decide_eq_false_iff_not] at hd
      refine ⟨List.nodup_cons.2 ⟨fun hk => (hd key hk).1 rfl, hn⟩, ?_, hkept⟩
      intro k hk
      rcases List.mem_cons.1 hk with rfl | hk
      · exact Bool.eq_false_iff.2 hkey
      · exact (hd k hk).2

theorem restore_entries {roles : SignedRoles P} {clock : HlcClock} {readings : Nat → PhysicalTime}
    {loaded : Option (PersistedState K V P Timestamp)} {k : K} {e : Entry Timestamp V}
    (h : restore H roles clock readings loaded = .ok s) (he : s.entries.lookup k = some e) :
    ∃ saved, loaded = some saved ∧ (k, e) ∈ saved.entries := by
  obtain ⟨entries, _, hload, _, _, rfl⟩ := restore_eq_ok h
  obtain ⟨_, _, rfl⟩ := loadEntries_eq_ok hload
  rcases HashMap.lookup_foldl_sound he with hempty | hin
  · cases hempty
  · cases loaded with
    | none => cases hin
    | some saved => exact ⟨saved, rfl, hin⟩

theorem exists_loadEntries {saved : List (K × Entry Timestamp V)}
    (hn : (saved.map Prod.fst).Nodup) {entries : HashMap K (Entry Timestamp V)}
    (hd : ∀ k ∈ saved.map Prod.fst, entries.contains k = false) (i : Nat) (c : HlcClock) :
    ∃ c', loadEntries H readings i c entries saved =
      .ok (saved.foldl (fun m kv => m.insert kv.1 kv.2) entries, c') := by
  induction saved generalizing i c entries with
  | nil => exact ⟨c, rfl⟩
  | cons ke saved ih =>
    obtain ⟨key, entry⟩ := ke
    obtain ⟨hkey, hn⟩ := List.nodup_cons.1 hn
    rw [loadEntries, if_neg (Bool.eq_false_iff.1 (hd key List.mem_cons_self))]
    refine ih hn ?_ _ _
    intro k hk
    rw [HashMap.contains_insert, Bool.or_eq_false_iff, decide_eq_false_iff_not]
    refine ⟨?_, hd k (List.mem_cons_of_mem _ hk)⟩
    rintro rfl
    exact hkey hk

end SignedCausal

end Reconcile
