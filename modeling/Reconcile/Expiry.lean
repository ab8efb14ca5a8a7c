import Reconcile.Clock
import Reconcile.Engine
import Reconcile.TimeoutWheel

namespace Reconcile
open Lib
set_option autoImplicit true

structure WallReading where
  phys : PhysicalTime
  utc : Int

inductive StampBound where
  | verbatim
  | capped
  | unrepresentable
  deriving DecidableEq, Repr

/-- An instant derived from a stored stamp, which a peer controls. -/
structure BoundedInstant where
  instant : Int
  bound : StampBound
  deriving DecidableEq, Repr

/-- `lastInstant` is the last millisecond the calendar library can represent. -/
def BoundedInstant.fromStoredStamp (lastInstant : Nat) (stampPhysical budget : PhysicalTime)
    (now : WallReading) : BoundedInstant :=
  let admitted := clampedToDrift stampPhysical now.phys budget
  if admitted.val ≤ lastInstant then
    ⟨admitted.val, if saturatingAddMs now.phys budget < stampPhysical then .capped else .verbatim⟩
  else ⟨now.utc, .unrepresentable⟩

def tombstoneStampDriftBudget : PhysicalTime := 3600000

variable {K V P : Type} [DecidableEq K] [DecidableEq P]

namespace TimeoutWheel

variable (lastInstant : Nat)

def preInsert (w : TimeoutWheel K) (now : WallReading) (k : K) (v : Entry Timestamp V) :
    TimeoutWheel K :=
  if v.value.isSome then (w.remove k).2
  else
    w.insert k (BoundedInstant.fromStoredStamp lastInstant v.stamp.hlc.physical
      tombstoneStampDriftBudget now).instant

def preInsertAll (w : TimeoutWheel K) :
    (Nat → WallReading) → List (K × Entry Timestamp V) → TimeoutWheel K
  | _, [] => w
  | now, kv :: kvs =>
    (w.preInsert lastInstant (now 0) kv.1 kv.2).preInsertAll (fun i => now (i + 1)) kvs

end TimeoutWheel

/-- The calls that write the map in place run no hook. -/
def LocalCall.hooked (r : Replica K V P Timestamp) (call : LocalCall K V) (stamps : List Timestamp) :
    List (K × Entry Timestamp V) :=
  match call with
  | .getMut _ _ => []
  | .update _ _ _ => []
  | call => call.writes r stamps

structure ExpiringMap (K V P : Type) where
  engine : Replica K V P Timestamp := {}
  tombstones : TimeoutWheel K := {}

inductive MapOperation (K V : Type) where
  | write (call : LocalCall K V) (stamps : List Timestamp) (now : Nat → WallReading)
  | receive (updates : List (K × Entry Timestamp V)) (now : Nat → WallReading)

namespace ExpiringMap

variable (lastInstant : Nat) (R : Rsos Timestamp V)

/-- One operation from its call to its end. The hooks run before the locked section. -/
def apply (m : ExpiringMap K V P) : MapOperation K V → ExpiringMap K V P
  | .write call stamps now =>
    { engine := call.store m.engine stamps
      tombstones := m.tombstones.preInsertAll lastInstant now (call.hooked m.engine stamps) }
  | .receive updates now =>
    let toApply := (filterDatedUpdates R m.engine.map updates).1
    { engine := (m.engine.mergeDatedUpdates R toApply).1
      tombstones := m.tombstones.preInsertAll lastInstant now toApply }

def TracksTombstones (m : ExpiringMap K V P) : Prop :=
  ∀ k, m.tombstones.tracked k = (m.engine.map.lookup k).any Entry.isTombstone

end ExpiringMap

/-- No version of a key in the batch both differs in kind from the last one carried for the key
and is as new as it. -/
def LastDecides (updates : List (K × Entry Timestamp V)) : Prop :=
  ∀ u ∈ updates, ∀ last ∈ (HashMap.ofList updates).lookup u.1,
    u.2.stamp < last.stamp ∨ u.2.isTombstone = last.isTombstone

instance (updates : List (K × Entry Timestamp V)) : Decidable (LastDecides updates) :=
  inferInstanceAs (Decidable (∀ u ∈ updates, ∀ last ∈ (HashMap.ofList updates).lookup u.1,
    u.2.stamp < last.stamp ∨ u.2.isTombstone = last.isTombstone))

def MapOperation.LastDecides : MapOperation K V → Prop
  | .write _ _ _ => True
  | .receive updates _ => Reconcile.LastDecides updates

instance : (op : MapOperation K V) → Decidable op.LastDecides
  | .write _ _ _ => isTrue trivial
  | .receive updates _ => inferInstanceAs (Decidable (LastDecides updates))

namespace TimeoutWheel

variable (lastInstant : Nat) (w : TimeoutWheel K)

theorem tracked_preInsert (now : WallReading) (k x : K) (v : Entry Timestamp V) :
    (w.preInsert lastInstant now k v).tracked x =
      if x = k then v.isTombstone else w.tracked x := by
  obtain ⟨stamp, state⟩ := v
  cases state with
  | present value =>
    have hp : w.preInsert lastInstant now k ⟨stamp, .present value⟩ = (w.remove k).2 := rfl
    rw [hp, tracked_remove]
    by_cases hx : x = k <;> simp [hx, Entry.isTombstone]
  | tombstone =>
    rw [preInsert, if_neg (by simp [Entry.value]), tracked_insert]
    by_cases hx : x = k <;> simp [hx, Entry.isTombstone]

/-- The last pair of a key decides; a key that is not in the list stays as it was. -/
theorem tracked_preInsertAll (now : Nat → WallReading) (kvs : List (K × Entry Timestamp V))
    (k : K) :
    (w.preInsertAll lastInstant now kvs).tracked k =
      (((HashMap.ofList kvs).lookup k).map Entry.isTombstone).getD (w.tracked k) := by
  induction kvs generalizing w now with
  | nil => rfl
  | cons kv kvs ih =>
    rw [preInsertAll, ih, tracked_preInsert, HashMap.lookup_ofList_cons]
    cases (HashMap.ofList kvs).lookup k with
    | some e => rfl
    | none => by_cases hk : k = kv.1 <;> simp [hk]

variable {w}

theorem Indexed.preInsertAll (h : w.Indexed) (now : Nat → WallReading)
    (kvs : List (K × Entry Timestamp V)) : (w.preInsertAll lastInstant now kvs).Indexed := by
  induction kvs generalizing w now with
  | nil => exact h
  | cons kv kvs ih =>
    apply ih
    unfold preInsert
    split
    · exact h.remove kv.1
    · exact h.insert kv.1 _

end TimeoutWheel

theorem filterDatedUpdates_eq_filter [LinearOrder T] (R : Rsos T V)
    (guard : HashMap K (Entry T V)) (updates : List (K × Entry T V)) :
    (filterDatedUpdates R guard updates).1 =
      updates.filter fun u => (guard.lookup u.1).all fun localV => localV.stamp < u.2.stamp := by
  induction updates with
  | nil => rfl
  | cons u updates ih =>
    obtain ⟨k, remote⟩ := u
    rw [filterDatedUpdates, List.filter_cons]
    cases hl : guard.lookup k with
    | none => simp [ih]
    | some localV =>
      by_cases hs : localV.stamp < remote.stamp
      · simp [hs, ih]
      · by_cases ht : localV.isTombstone = true <;> simp [hs, ht, ih]

namespace ExpiringMap

variable {lastInstant : Nat} {R : Rsos Timestamp V} {m : ExpiringMap K V P}
variable {updates : List (K × Entry Timestamp V)}

omit [DecidableEq P] in
theorem mem_kept (k : K) (e : Entry Timestamp V) :
    (k, e) ∈ (filterDatedUpdates R m.engine.map updates).1 ↔
      (k, e) ∈ updates ∧ ∀ localV, m.engine.map.lookup k = some localV → localV.stamp < e.stamp := by
  rw [filterDatedUpdates_eq_filter, List.mem_filter, Option.all_eq_true]
  simp only [decide_eq_true_eq]

theorem lookup_mergeLoop_of_none {toApply : List (K × Entry Timestamp V)} {k : K}
    (hk : (HashMap.ofList toApply).lookup k = none) :
    (m.engine.mergeLoop R toApply).1.map.lookup k = m.engine.map.lookup k := by
  cases ha : (m.engine.mergeLoop R toApply).1.map.lookup k with
  | some e =>
    rcases Replica.mergeLoop_sound R ha with hb | hm
    · exact hb.symm
    · obtain ⟨last, hl⟩ := HashMap.exists_lookup_ofList hm
      rw [hk] at hl
      cases hl
  | none =>
    cases hb : m.engine.map.lookup k with
    | none => rfl
    | some e =>
      obtain ⟨e', he', _⟩ := Replica.mergeLoop_grows R m.engine toApply k e hb
      rw [ha] at he'
      cases he'

theorem kind_mergeLoop (hlast : LastDecides updates) {k : K} {kept : Entry Timestamp V}
    (hk : (HashMap.ofList (filterDatedUpdates R m.engine.map updates).1).lookup k = some kept) :
    ∃ e, (m.engine.mergeLoop R (filterDatedUpdates R m.engine.map updates).1).1.map.lookup k =
      some e ∧ e.isTombstone = kept.isTombstone := by
  have hkept := HashMap.mem_of_lookup_ofList hk
  obtain ⟨hmem, hnew⟩ := (mem_kept k kept).1 hkept
  obtain ⟨e, he, hle⟩ := Replica.mergeLoop_covers R (r := m.engine) hkept
  refine ⟨e, he, ?_⟩
  -- a local entry is older than what was kept, so the merged one came with the batch
  have hin : (k, e) ∈ (filterDatedUpdates R m.engine.map updates).1 := by
    rcases Replica.mergeLoop_sound R he with hl | hb
    · exact absurd (hnew e hl) (not_lt.2 hle)
    · exact hb
  obtain ⟨hmem', hnew'⟩ := (mem_kept k e).1 hin
  obtain ⟨last, hl⟩ := HashMap.exists_lookup_ofList hmem
  by_cases hlk : (k, last) ∈ (filterDatedUpdates R m.engine.map updates).1
  · have hsame : kept = last := by
      rw [filterDatedUpdates_eq_filter] at hk hlk
      rw [HashMap.lookup_ofList_filter hl (List.mem_filter.1 hlk).2] at hk
      exact (Option.some.inj hk).symm
    subst hsame
    exact (hlast (k, e) hmem' kept hl).resolve_left (not_lt.2 hle)
  · -- the last version was not newer than the local one, so every kept version is newer than it
    have hlocal : ∃ localV, m.engine.map.lookup k = some localV ∧ last.stamp ≤ localV.stamp := by
      by_contra hc
      push Not at hc
      exact hlk ((mem_kept k last).2 ⟨HashMap.mem_of_lookup_ofList hl, hc⟩)
    obtain ⟨localV, hlv, hle'⟩ := hlocal
    have hkind : ∀ x, (k, x) ∈ updates → localV.stamp < x.stamp →
        x.isTombstone = last.isTombstone := fun x hx hs =>
      (hlast (k, x) hx last hl).resolve_left (not_lt.2 (le_of_lt (lt_of_le_of_lt hle' hs)))
    rw [hkind e hmem' (hnew' localV hlv), hkind kept hmem (hnew localV hlv)]

theorem TracksTombstones.receive (h : m.TracksTombstones) (hlast : LastDecides updates)
    (now : Nat → WallReading) : (m.apply lastInstant R (.receive updates now)).TracksTombstones := by
  intro k
  have hmap : (m.apply lastInstant R (.receive updates now)).engine.map =
    (m.engine.mergeLoop R (filterDatedUpdates R m.engine.map updates).1).1.map := rfl
  rw [hmap]
  simp only [apply, TimeoutWheel.tracked_preInsertAll]
  cases hk : (HashMap.ofList (filterDatedUpdates R m.engine.map updates).1).lookup k with
  | none =>
    rw [lookup_mergeLoop_of_none hk]
    exact h k
  | some kept =>
    obtain ⟨e, he, ht⟩ := kind_mergeLoop hlast hk
    rw [he]
    exact ht.symm

theorem TracksTombstones.hooked (h : m.TracksTombstones) (call : LocalCall K V)
    (stamps : List Timestamp) (now : Nat → WallReading)
    (hw : call.hooked m.engine stamps = call.writes m.engine stamps) :
    (m.apply lastInstant R (.write call stamps now)).TracksTombstones := by
  intro k
  simp only [apply, TimeoutWheel.tracked_preInsertAll, LocalCall.store_map,
    HashMap.lookup_foldl_ofList, hw]
  cases (HashMap.ofList (call.writes m.engine stamps)).lookup k with
  | none => exact h k
  | some e => rfl

/-- A call that runs no hook leaves every key of the kind it was. -/
theorem TracksTombstones.unhooked (h : m.TracksTombstones) (hm : m.engine.Mirrored)
    (call : LocalCall K V) (stamps : List Timestamp) (now : Nat → WallReading)
    (hw : call.hooked m.engine stamps = [])
    (ht : (call.store m.engine stamps).liveTombstones = m.engine.liveTombstones) :
    (m.apply lastInstant R (.write call stamps now)).TracksTombstones := by
  intro k
  have hkind : ((call.store m.engine stamps).map.lookup k).any Entry.isTombstone =
      (m.engine.map.lookup k).any Entry.isTombstone := by
    rw [Bool.eq_iff_iff, Option.any_eq_true, Option.any_eq_true, ← hm.tombstones k,
      ← (LocalCall.store_mirrored hm call stamps).tombstones k, ht]
  simp only [apply, hw, TimeoutWheel.preInsertAll, hkind]
  exact h k

theorem liveTombstones_getMut (r : Replica K V P T) (k : K) (callback : V → V) (now : T) :
    (r.getMut k callback now).2.liveTombstones = r.liveTombstones := by
  rw [Replica.getMut]
  split <;> rfl

theorem liveTombstones_mutateLiveChecked (r : Replica K V P T) (k : K) (callback : V → V)
    (validate : V → Except ε Unit) (now : T) :
    (r.mutateLiveChecked k callback validate now).2.liveTombstones = r.liveTombstones := by
  rw [Replica.mutateLiveChecked]
  split
  · split <;> rfl
  · rfl

theorem TracksTombstones.write (h : m.TracksTombstones) (hm : m.engine.Mirrored)
    (call : LocalCall K V) (stamps : List Timestamp) (now : Nat → WallReading) :
    (m.apply lastInstant R (.write call stamps now)).TracksTombstones := by
  cases call with
  | insert k v => exact h.hooked _ stamps now rfl
  | remove k => exact h.hooked _ stamps now rfl
  | insertBulk kvs => exact h.hooked _ stamps now rfl
  | removeBulk keys => exact h.hooked _ stamps now rfl
  | getMut k callback =>
    refine h.unhooked hm _ stamps now rfl ?_
    rcases stamps with _ | ⟨now, _ | ⟨_, _⟩⟩
    · rfl
    · exact liveTombstones_getMut _ k callback now
    · rfl
  | update k callback validate =>
    refine h.unhooked hm _ stamps now rfl ?_
    rcases stamps with _ | ⟨now, _ | ⟨_, _⟩⟩
    · rfl
    · exact liveTombstones_mutateLiveChecked _ k callback validate now
    · rfl

structure Expiring (m : ExpiringMap K V P) : Prop where
  mirrored : m.engine.Mirrored
  indexed : m.tombstones.Indexed
  tracks : m.TracksTombstones

theorem Expiring.apply (h : m.Expiring) (op : MapOperation K V) (hop : op.LastDecides) :
    (m.apply lastInstant R op).Expiring := by
  cases op with
  | write call stamps now =>
    exact ⟨LocalCall.store_mirrored h.mirrored call stamps, h.indexed.preInsertAll _ now _,
      h.tracks.write h.mirrored call stamps now⟩
  | receive updates now =>
    exact ⟨(h.mirrored.mergeLoop R _).recordChanges _, h.indexed.preInsertAll _ now _,
      h.tracks.receive hop now⟩

omit [DecidableEq P] in
theorem Expiring.tombstone_of_expired (h : m.Expiring) {now : Int} {k : K}
    (hk : k ∈ m.tombstones.expired now) :
    ∃ e, m.engine.map.lookup k = some e ∧ e.isTombstone = true := by
  obtain ⟨i, hi, _⟩ := (h.indexed.mem_expired now k).1 hk
  have ht : m.tombstones.tracked k = true := by
    rw [TimeoutWheel.tracked, HashMap.contains, hi]
    rfl
  rwa [h.tracks k, Option.any_eq_true] at ht

omit [DecidableEq P] in
theorem expiring_empty : ({} : ExpiringMap K V P).Expiring := by
  refine ⟨⟨fun k => rfl, fun k => ?_⟩, TimeoutWheel.indexed_empty _, fun k => rfl⟩
  simp

theorem expiring_run (ops : List (MapOperation K V)) (hops : ∀ op ∈ ops, op.LastDecides) :
    (ops.foldl (ExpiringMap.apply lastInstant R) ({} : ExpiringMap K V P)).Expiring :=
  List.foldlRecOn (motive := Expiring) ops _ expiring_empty fun _ h op hop =>
    h.apply op (hops op hop)

/-- Whatever is written and received, the keys in the wheel are those the map holds as deleted,
as long as the last version a batch carries for a key decides its kind. -/
theorem wheel_tracks_tombstones (lastInstant : Nat) (R : Rsos Timestamp V)
    (ops : List (MapOperation K V)) (hops : ∀ op ∈ ops, op.LastDecides) (k : K) :
    let m := ops.foldl (ExpiringMap.apply lastInstant R) ({} : ExpiringMap K V P)
    (m.tombstones.tracked k = true ↔ ∃ i, m.tombstones.wheel.holds i k = true) ∧
      (m.tombstones.tracked k = true ↔
        ∃ e, m.engine.map.lookup k = some e ∧ e.isTombstone = true) := by
  intro m
  have h : m.Expiring := expiring_run ops hops
  refine ⟨?_, ?_⟩
  · rw [TimeoutWheel.tracked, HashMap.contains, Option.isSome_iff_exists]
    exact exists_congr fun i => (h.indexed i k).symm
  · rw [h.tracks k, Option.any_eq_true]

def stampAt (ms : PhysicalTime) : Timestamp := ⟨⟨ms, 0⟩, 0⟩

def timed : Rsos Timestamp Unit where
  toMerge := Merge.keepLocal Timestamp Unit
  digest s := match s with
    | .present _ => 1
    | .tombstone => 0
  entryDigest e := e.stamp.hlc.physical.val

def noon : Nat → WallReading := fun i => ⟨1000, i⟩

def deletedTwice : List (MapOperation Nat Unit) :=
  [.write (.remove 1) [stampAt 4] noon,
    .receive [(2, .present (stampAt 3) ()), (1, .present (stampAt 2) ()),
      (2, .tombstone (stampAt 5))] noon]

theorem wheel_tracks_tombstones_deletedTwice :
    (∀ op ∈ deletedTwice, op.LastDecides) ∧
      (deletedTwice.foldl (apply 0 timed) ({} : ExpiringMap Nat Unit Nat)).tombstones.tracked 2 =
        true := by
  have hops : ∀ op ∈ deletedTwice, op.LastDecides := by decide +kernel
  refine ⟨hops, (wheel_tracks_tombstones 0 timed deletedTwice hops 2).2.2 ?_⟩
  exact ⟨.tombstone (stampAt 5), by decide +kernel, rfl⟩

/-- The older live version comes last: the map keeps the deletion, the wheel forgets it. -/
theorem wheel_forgets_tombstone :
    let updates : List (Nat × Entry Timestamp Unit) :=
      [(1, .tombstone (stampAt 5)), (1, .present (stampAt 3) ())]
    let m := ([.receive updates noon].foldl (apply 0 timed) ({} : ExpiringMap Nat Unit Nat))
    (m.engine.map.lookup 1 = some (.tombstone (stampAt 5))) ∧ m.tombstones.tracked 1 = false := by
  decide +kernel

end ExpiringMap

end Reconcile
