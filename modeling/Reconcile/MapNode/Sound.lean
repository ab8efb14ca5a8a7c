import Reconcile.MapNode

namespace Reconcile
open Lib Replay
set_option autoImplicit true

variable {K V P T A : Type} [LinearOrder K] [LinearOrder P] [LinearOrder T]

theorem mem_filterDatedUpdates_acks {R : Rsos T V} {guard : HashMap K (Entry T V)}
    {updates : List (K × Entry T V)} (h : (k, version) ∈ (filterDatedUpdates R guard updates).2) :
    ∃ e, guard.lookup k = some e ∧ e.isTombstone = true ∧ R.versionHash e = version := by
  induction updates with
  | nil => cases h
  | cons kv updates ih =>
    obtain ⟨k₀, remote⟩ := kv
    rw [filterDatedUpdates] at h
    split at h
    · next localV hl =>
      split at h
      · exact ih h
      split at h
      · next ht =>
        rcases List.mem_cons.1 h with h | h
        · cases h
          exact ⟨localV, hl, ht, rfl⟩
        · exact ih h
      · exact ih h
    · exact ih h

/-- The merge loop acknowledges tombstones it found or received. The map it leaves has entries at
least as new for their keys. -/
theorem mem_mergeLoop_acks {R : Rsos T V} {r : Replica K V P T} {toApply : List (K × Entry T V)}
    (h : (k, version) ∈ (r.mergeLoop R toApply).2) :
    ∃ e, e.isTombstone = true ∧ R.versionHash e = version ∧
      (r.map.lookup k = some e ∨ (k, e) ∈ toApply) ∧
      HashMap.Covers Entry.stamp (r.mergeLoop R toApply).1.map k e := by
  induction toApply generalizing r with
  | nil => cases h
  | cons kv toApply ih =>
    obtain ⟨k₀, v⟩ := kv
    have hrest (h : (k, version) ∈ ((r.mergeUpdate R k₀ v).mergeLoop R toApply).2) :
        ∃ e, e.isTombstone = true ∧ R.versionHash e = version ∧
          (r.map.lookup k = some e ∨ (k, e) ∈ (k₀, v) :: toApply) ∧
          HashMap.Covers Entry.stamp (r.mergeLoop R ((k₀, v) :: toApply)).1.map k e := by
      obtain ⟨e, ht, hv, hfrom, hcovers⟩ := ih h
      refine ⟨e, ht, hv, ?_, hcovers⟩
      rcases hfrom with hfrom | hfrom
      · rcases Replica.mergeUpdate_sound R hfrom with hfrom | hfrom
        · exact .inl hfrom
        · exact .inr (hfrom ▸ List.mem_cons_self)
      · exact .inr (List.mem_cons_of_mem _ hfrom)
    rw [Replica.mergeLoop] at h
    simp only at h
    split at h
    · next ht =>
      rcases List.mem_cons.1 h with h | h
      · cases h
        refine ⟨_, ht, rfl, ?_, ?_⟩
        · rcases r.mergedEntry_eq_or R k v with he | he
          · exact .inl he
          · rw [he]
            exact .inr List.mem_cons_self
        · have hcovers : HashMap.Covers Entry.stamp (r.mergeUpdate R k v).map k
              (r.mergedEntry R k v) := HashMap.covers_insert r.map k _
          exact hcovers.grows (Replica.mergeLoop_grows R _ toApply)
      · exact hrest h
    · exact hrest h

/-- The message is backed: an update carries an entry of `L` or its state, and the tombstone
acknowledged is in `L` and not newer than an entry for its key in `H`. -/
def Backed (R : Rsos T V) (L H : K → Entry T V → Prop) : MapMessage K V T A → Prop
  | .entryUpdate k e => L k e
  | .stateUpdate k s => ∃ e, L k e ∧ e.project = s
  | .tombstoneAck k version => ∃ e, L k e ∧ e.isTombstone = true ∧ R.versionHash e = version ∧
      ∃ e', H k e' ∧ e.stamp ≤ e'.stamp
  | _ => True

section Backed

variable {R : Rsos T V} {L L' H H' : K → Entry T V → Prop}

omit [LinearOrder K] in
theorem Backed.mono {m : MapMessage K V T A} (h : Backed R L H m) (hL : ∀ k e, L k e → L' k e)
    (hH : ∀ k e, H k e → H' k e) : Backed R L' H' m := by
  cases m with
  | entryUpdate k e => exact hL k e h
  | stateUpdate k s =>
    obtain ⟨e, he, hs⟩ := h
    exact ⟨e, hL k e he, hs⟩
  | tombstoneAck k version =>
    obtain ⟨e, he, ht, hv, e', he', hle⟩ := h
    exact ⟨e, hL k e he, ht, hv, e', hH k e' he', hle⟩
  | entryFingerprint segment => trivial
  | stateFingerprint segment => trivial
  | convergenceAck => trivial
  | reserved6 bytes => trivial

omit [LinearOrder K] in
theorem backed_ackMessage {e e' : Entry T V} (he : L k e) (ht : e.isTombstone = true)
    (hv : R.versionHash e = version) (he' : H k e') (hle : e.stamp ≤ e'.stamp) :
    Backed R L H (ackMessage (k, version) : MapMessage K V T A) := by
  refine ⟨e, he, ht, ?_, e', he', hle⟩
  subst hv
  exact (Nat.mod_eq_of_lt (mod_word_lt _)).symm

end Backed

def QueueCall.carried : QueueCall K V T → List (K × Entry T V)
  | .reading keyValues | .broadcasting keyValues | .merging keyValues _ => keyValues
  | .spawning _ => []

def FlushTask.carried : FlushTask K V T → List (K × Entry T V)
  | .sleeping _ => []
  | .broadcasting batch => batch

namespace Coalescer

structure Holds (L : K → Entry T V → Prop) (s : Coalescer K V T) : Prop where
  pending : ∀ k e, s.pending.lookup k = some e → L k e
  calls : ∀ c stage, s.calls.lookup c = some stage → ∀ kv ∈ stage.carried, L kv.1 kv.2
  tasks : ∀ c stage, s.tasks.lookup c = some stage → ∀ kv ∈ stage.carried, L kv.1 kv.2

variable {M : Merge T V} {L L' : K → Entry T V → Prop} {s s' : Coalescer K V T}

omit [LinearOrder T] in
theorem Holds.mono (h : s.Holds L) (hL : ∀ k e, L k e → L' k e) : s.Holds L' where
  pending k e he := hL k e (h.pending k e he)
  calls c stage hc kv hkv := hL _ _ (h.calls c stage hc kv hkv)
  tasks c stage hc kv hkv := hL _ _ (h.tasks c stage hc kv hkv)

theorem mergeAll_from {buffer : HashMap K (Entry T V)} {keyValues : List (K × Entry T V)}
    (hb : ∀ k e, buffer.lookup k = some e → L k e) (hk : ∀ kv ∈ keyValues, L kv.1 kv.2) :
    ∀ k e, (mergeAll M buffer keyValues).lookup k = some e → L k e := by
  induction keyValues generalizing buffer with
  | nil => exact hb
  | cons kv keyValues ih =>
    apply ih ?_ fun kv' hkv' => hk kv' (List.mem_cons_of_mem kv hkv')
    have hkv := hk kv List.mem_cons_self
    intro k e he
    rw [lookup_mergeInto] at he
    split at he
    · next hkey =>
      subst hkey
      cases hl : buffer.lookup kv.1 with
      | none =>
        rw [hl] at he
        cases he
        exact hkv
      | some existing =>
        rw [hl, Option.map_some, Option.getD_some, Option.some.injEq] at he
        subst he
        rcases M.merge_eq_or existing kv.2 with hm | hm
        · rw [hm]
          exact hb _ _ hl
        · rw [hm]
          exact hkv
    · exact hb k e he

omit [LinearOrder T] in
theorem Holds.insertCall (h : s.Holds L) (c : Nat) (stage : QueueCall K V T)
    (hs : ∀ kv ∈ stage.carried, L kv.1 kv.2) :
    Holds L { s with calls := s.calls.insert c stage } where
  pending := h.pending
  tasks := h.tasks
  calls c' stage' hc := by
    rw [HashMap.lookup_insert_eq] at hc
    split at hc
    · cases hc
      exact hs
    · exact h.calls c' stage' hc

omit [LinearOrder T] in
theorem Holds.eraseCall (h : s.Holds L) (c : Nat) :
    Holds L { s with calls := s.calls.erase c } where
  pending := h.pending
  tasks := h.tasks
  calls c' stage' hc := by
    rw [HashMap.lookup_erase_eq] at hc
    split at hc
    · cases hc
    · exact h.calls c' stage' hc

omit [LinearOrder T] in
theorem Holds.insertTask (h : s.Holds L) (c : Nat) (stage : FlushTask K V T)
    (hs : ∀ kv ∈ stage.carried, L kv.1 kv.2) :
    Holds L { s with tasks := s.tasks.insert c stage } where
  pending := h.pending
  calls := h.calls
  tasks c' stage' hc := by
    rw [HashMap.lookup_insert_eq] at hc
    split at hc
    · cases hc
      exact hs
    · exact h.tasks c' stage' hc

omit [LinearOrder T] in
theorem Holds.eraseTask (h : s.Holds L) (c : Nat) :
    Holds L { s with tasks := s.tasks.erase c } where
  pending := h.pending
  calls := h.calls
  tasks c' stage' hc := by
    rw [HashMap.lookup_erase_eq] at hc
    split at hc
    · cases hc
    · exact h.tasks c' stage' hc

/-- The coalescer passes on what it was given: its batches come from `L` too. -/
theorem Holds.step (h : s.Holds L) (hs : s.step M event = some s')
    (hq : ∀ kvs, event = .queue kvs → ∀ kv ∈ kvs, L kv.1 kv.2) :
    s'.Holds L ∧ ∀ batch ∈ s'.broadcasts.drop s.broadcasts.length, ∀ kv ∈ batch, L kv.1 kv.2 := by
  have hsame {s' : Coalescer K V T} (he : s'.broadcasts = s.broadcasts) :
      ∀ batch ∈ s'.broadcasts.drop s.broadcasts.length, ∀ kv ∈ batch, L kv.1 kv.2 := by
    rw [he, List.drop_length]
    exact nofun
  have hnew {keyValues : List (K × Entry T V)} (hk : ∀ kv ∈ keyValues, L kv.1 kv.2) :
      ∀ batch ∈ (s.broadcasts ++ [keyValues]).drop s.broadcasts.length,
        ∀ kv ∈ batch, L kv.1 kv.2 := by
    intro batch hbatch
    rw [List.drop_left, List.mem_singleton] at hbatch
    subst hbatch
    exact hk
  cases step_moves hs with
  | ignored => exact ⟨h, hsame rfl⟩
  | queued hne =>
    have hcall := h.insertCall s.started (.reading _) (hq _ rfl)
    exact ⟨⟨hcall.pending, hcall.calls, hcall.tasks⟩, hsame rfl⟩
  | @read c keyValues stage hc hstage =>
    have hk := h.calls c _ hc
    refine ⟨h.insertCall c stage ?_, hsame rfl⟩
    rw [hstage]
    split <;> exact hk
  | @broadcast c _ hc =>
    have hcall := h.eraseCall c
    exact ⟨⟨hcall.pending, hcall.calls, hcall.tasks⟩, hnew (h.calls _ _ hc)⟩
  | @first c _ w hc hempty =>
    have hcall := h.insertCall c (.spawning w) nofun
    exact ⟨⟨mergeAll_from h.pending (h.calls _ _ hc), hcall.calls, hcall.tasks⟩, hsame rfl⟩
  | @joined c _ _ hc hne =>
    have hcall := h.eraseCall c
    exact ⟨⟨mergeAll_from h.pending (h.calls _ _ hc), hcall.calls, hcall.tasks⟩, hsame rfl⟩
  | spawned hc =>
    exact ⟨(h.eraseCall _).insertTask _ (.sleeping _) nofun, hsame rfl⟩
  | woke ht hempty => exact ⟨h.eraseTask _, hsame rfl⟩
  | @took c _ ht hne =>
    have htask := h.insertTask c (.broadcasting s.pending.toList) ?_
    · refine ⟨⟨?_, htask.calls, htask.tasks⟩, hsame rfl⟩
      intro k e he
      cases he
    · intro kv hkv
      exact h.pending _ _ ((HashMap.mem_toList _ _ _).1 hkv)
  | @sent c _ ht =>
    have htask := h.eraseTask c
    exact ⟨⟨htask.pending, htask.calls, htask.tasks⟩, hnew (h.tasks _ _ ht)⟩
  | changed w => exact ⟨⟨h.pending, h.calls, h.tasks⟩, hsame rfl⟩

end Coalescer

structure DumpTrees.Holds (L : K → Entry T V → Prop) (trees : DumpTrees K V T) : Prop where
  map : ∀ kv ∈ trees.map, L kv.1 kv.2
  projection : ∀ ks ∈ trees.projection, ∃ e, L ks.1 e ∧ e.project = ks.2

omit [LinearOrder K] [LinearOrder T] in
theorem DumpTrees.Holds.mono {L L' : K → Entry T V → Prop} {trees : DumpTrees K V T}
    (h : trees.Holds L) (hL : ∀ k e, L k e → L' k e) : trees.Holds L' where
  map kv hkv := hL _ _ (h.map kv hkv)
  projection ks hks := by
    obtain ⟨e, he, hs⟩ := h.projection ks hks
    exact ⟨e, hL _ _ he, hs⟩

namespace DumpState

def Holds (L : K → Entry T V → Prop) (s : DumpState K V T) : Prop :=
  ∀ channel ranges trees, s.holder = some (.sending channel ranges trees) → trees.Holds L

variable {L L' H : K → Entry T V → Prop} {R : Rsos T V} {s s' : DumpState K V T}

omit [LinearOrder K] [LinearOrder T] in
theorem Holds.mono (h : s.Holds L) (hL : ∀ k e, L k e → L' k e) : s.Holds L' :=
  fun channel ranges trees ht => (h channel ranges trees ht).mono hL

theorem backed_enumerate {trees : DumpTrees K V T} (h : trees.Holds L)
    (hm : m ∈ enumerate channel trees ranges) :
    Backed R L H (m.toMessage : MapMessage K V T A) := by
  obtain ⟨k, hu, _⟩ := mem_enumerate.1 hm
  cases channel with
  | dated =>
    obtain ⟨kv, hkv, he⟩ := List.mem_map.1 hu
    cases he
    exact h.map kv hkv
  | valueOnly =>
    obtain ⟨ks, hks, he⟩ := List.mem_map.1 hu
    cases he
    exact h.projection ks hks

def sending (s : DumpState K V T) : Bool :=
  match s.holder with
  | some (.sending _ _ _) => true
  | _ => false

omit [LinearOrder K] [LinearOrder T] in
theorem holds_of_not_sending (h : s.sending = false) : s.Holds L := by
  intro channel ranges trees hs
  rw [sending, hs] at h
  cases h

theorem Holds.step (h : s.Holds L) (hs : s.step event = some s')
    (ht : ∀ trees, event = .enumerate trees → trees.Holds L) :
    s'.Holds L ∧ ∀ m ∈ s'.sent.drop s.sent.length,
      Backed R L H (m.toMessage : MapMessage K V T A) := by
  have hidle {s' : DumpState K V T} (hh : s'.sending = false) (he : s'.sent = s.sent) :
      s'.Holds L ∧ ∀ m ∈ s'.sent.drop s.sent.length,
        Backed R L H (m.toMessage : MapMessage K V T A) := by
    refine ⟨holds_of_not_sending hh, ?_⟩
    rw [he, List.drop_length]
    exact List.forall_mem_nil _
  have hkeep {s' : DumpState K V T} (hh : s'.holder = s.holder) (he : s'.sent = s.sent) :
      s'.Holds L ∧ ∀ m ∈ s'.sent.drop s.sent.length,
        Backed R L H (m.toMessage : MapMessage K V T A) := by
    refine ⟨fun channel ranges trees hs => h channel ranges trees (hh ▸ hs), ?_⟩
    rw [he, List.drop_length]
    exact List.forall_mem_nil _
  cases event with
  | start channel ranges =>
    rw [DumpState.step] at hs
    split at hs
    · cases hs
    split at hs
    · cases hs
      exact hidle rfl rfl
    · cases hs
      exact hkeep rfl rfl
  | budget claimed =>
    rw [DumpState.step] at hs
    split at hs
    · cases hs
      refine hidle ?_ rfl
      cases claimed <;> rfl
    · cases hs
  | unmark =>
    rw [DumpState.step] at hs
    split at hs
    · cases hs
      exact hidle rfl rfl
    · cases hs
  | admission granted =>
    rw [DumpState.step] at hs
    split at hs
    · cases hs
      refine hidle ?_ rfl
      cases granted <;> rfl
    · cases hs
  | take =>
    rw [DumpState.step] at hs
    split at hs
    · cases hs
      exact hidle rfl rfl
    · cases hs
  | enumerate trees =>
    have htrees := ht trees rfl
    rw [DumpState.step] at hs
    split at hs
    · next channel ranges _ =>
      split at hs
      · next hempty =>
        cases hs
        refine hidle rfl ?_
        simp only [sendUpdates, List.isEmpty_iff.1 hempty, List.append_nil]
      · cases hs
        refine ⟨?_, ?_⟩
        · intro channel ranges trees' hs
          cases hs
          exact htrees
        · simp only [List.drop_length]
          exact List.forall_mem_nil _
    · cases hs
  | send =>
    rw [DumpState.step] at hs
    split at hs
    · next channel ranges trees hholder =>
      cases hs
      refine ⟨holds_of_not_sending rfl, ?_⟩
      intro m hm
      simp only [sendUpdates, List.drop_left] at hm
      exact backed_enumerate (h channel ranges trees hholder) hm
    · cases hs
  | check =>
    rw [DumpState.step] at hs
    split at hs
    · split at hs
      · cases hs
        exact hidle rfl rfl
      · cases hs
        exact hidle rfl rfl
    · cases hs
  | release =>
    rw [DumpState.step] at hs
    split at hs
    · cases hs
      exact hidle rfl rfl
    · cases hs
  | stash call =>
    rw [DumpState.step] at hs
    split at hs
    · cases hs
      exact hkeep rfl rfl
    · cases hs

end DumpState

namespace MemberReplica

omit [LinearOrder T] in
theorem map_recordTombstoneAcks (r : MemberReplica K V P T) (peer : P) (acks : List (K × Nat)) :
    (r.recordTombstoneAcks peer acks).map = r.map := by
  unfold recordTombstoneAcks
  induction acks generalizing r with
  | nil => rfl
  | cons ack acks ih =>
    rw [List.foldl_cons, ih]
    unfold recordAck
    split
    · simp only
      split <;> rfl
    · rfl

omit [LinearOrder T] in
theorem map_join (r : MemberReplica K V P T) (peer : P) : (r.join peer).map = r.map := by
  unfold join
  split <;> rfl

omit [LinearOrder T] in
theorem map_decommissionPeer (r : MemberReplica K V P T) (peer : P) :
    (r.decommissionPeer peer).map = r.map := by
  have hloop : ∀ (keys : List K) (r : MemberReplica K V P T),
      (keys.foldl (forgetAck peer) r).map = r.map := by
    intro keys
    induction keys with
    | nil => exact fun _ => rfl
    | cons key keys ih =>
      intro r
      rw [List.foldl_cons, ih]
      unfold forgetAck
      split
      · rfl
      · split <;> rfl
  unfold decommissionPeer
  rw [hloop]
  split <;> rfl

end MemberReplica

namespace MapNode

variable {proto : Protocol K V T A} {ports : SendPorts} {hash : Bytes → TransferId}
variable {W W' : Bytes → Prop}
variable {L L' H H' : K → Entry T V → Prop} {n n' : MapNode K V P T A}

/-- Everything a node holds comes from `L`, what it kept for recovery from `W`, and its tasks say
nothing that is not backed. -/
structure Sound (proto : Protocol K V T A) (hash : Bytes → TransferId) (W : Bytes → Prop)
    (L H : K → Entry T V → Prop) (n : MapNode K V P T A) : Prop where
  recovery : n.endpoint.recovery.KeepsFrom hash W
  tasks : ∀ task ∈ n.tasks, task.outgoing.Says proto.codec (Backed proto.register L H)
  map : ∀ k e, n.store.map.lookup k = some e → L k e
  mirrored : n.store.toReplica.Mirrored
  coalescer : n.coalescer.Holds L
  dumping : ∀ peer, (n.dumping peer).Holds L

theorem Sound.mono (h : n.Sound proto hash W L H) (hW : ∀ w, W w → W' w)
    (hL : ∀ k e, L k e → L' k e) (hH : ∀ k e, H k e → H' k e) : n.Sound proto hash W' L' H' where
  recovery := h.recovery.mono hW
  tasks task ht := (h.tasks task ht).mono fun _ hm => hm.mono hL hH
  map k e he := hL k e (h.map k e he)
  mirrored := h.mirrored
  coalescer := h.coalescer.mono hL
  dumping peer := (h.dumping peer).mono hL

theorem Sound.spawn (h : n.Sound proto hash W L H) {tasks : List (SendTask K V P T A)}
    (ht : ∀ task ∈ tasks, task.outgoing.Says proto.codec (Backed proto.register L H)) :
    (n.spawn tasks).Sound proto hash W L H where
  recovery := h.recovery
  tasks task hin := by
    rcases List.mem_append.1 hin with hin | hin
    · exact h.tasks task hin
    · exact ht task hin
  map := h.map
  mirrored := h.mirrored
  coalescer := h.coalescer
  dumping := h.dumping

theorem Sound.spawn_one (h : n.Sound proto hash W L H) (peer : P)
    {outgoing : Outgoing (MapMessage K V T A)} (note : Bool)
    (ht : outgoing.Says proto.codec (Backed proto.register L H)) :
    (n.spawn [⟨peer, outgoing, note⟩]).Sound proto hash W L H := by
  apply h.spawn
  intro task hin
  rw [List.mem_singleton.1 hin]
  exact ht

theorem Sound.withStore (h : n.Sound proto hash W L H) (store : MemberReplica K V P T)
    (hm : ∀ k e, store.map.lookup k = some e → L k e) (hr : store.toReplica.Mirrored) :
    Sound proto hash W L H { n with store := store } where
  recovery := h.recovery
  tasks := h.tasks
  map := hm
  mirrored := hr
  coalescer := h.coalescer
  dumping := h.dumping

theorem Sound.withEndpoint (h : n.Sound proto hash W L H) (endpoint : Endpoint P)
    (he : endpoint.recovery.KeepsFrom hash W) :
    Sound proto hash W L H { n with endpoint := endpoint } where
  recovery := he
  tasks := h.tasks
  map := h.map
  mirrored := h.mirrored
  coalescer := h.coalescer
  dumping := h.dumping

theorem Sound.withDump (h : n.Sound proto hash W L H) (peer : P) {state : DumpState K V T}
    (hs : state.Holds L) :
    Sound proto hash W L H { n with dumping := Function.update n.dumping peer state } where
  recovery := h.recovery
  tasks := h.tasks
  map := h.map
  mirrored := h.mirrored
  coalescer := h.coalescer
  dumping p := by
    by_cases hp : p = peer
    · subst hp
      simp only [Function.update_self]
      exact hs
    · simp only [Function.update_of_ne hp]
      exact h.dumping p

theorem Sound.withPeers (h : n.Sound proto hash W L H) (peers : HashMap P Nat) :
    Sound proto hash W L H { n with peers := peers } :=
  ⟨h.recovery, h.tasks, h.map, h.mirrored, h.coalescer, h.dumping⟩

theorem Sound.withRepairs (h : n.Sound proto hash W L H) (repairs : PendingRepairs P) :
    Sound proto hash W L H { n with pendingRepairs := repairs } :=
  ⟨h.recovery, h.tasks, h.map, h.mirrored, h.coalescer, h.dumping⟩

theorem Sound.trees (h : n.Sound proto hash W L H) : n.trees.Holds L where
  map kv hkv := h.map _ _ ((HashMap.mem_toList _ _ _).1 ((List.mem_insertionSort _).1 hkv))
  projection ks hks := by
    have hp := (HashMap.mem_toList _ _ _).1 ((List.mem_insertionSort _).1 hks)
    rw [h.mirrored.projection] at hp
    obtain ⟨e, he, hs⟩ := Option.map_eq_some_iff.1 hp
    exact ⟨e, h.map _ _ he, hs⟩

theorem Sound.startDump (h : n.Sound proto hash W L H) (peer : P) (channel : DumpChannel)
    (differences : List (EnumerationRange K)) :
    (n.startDump peer channel differences).Sound proto hash W L H := by
  apply h.withDump
  cases hs : (n.dumping peer).step (.start channel differences) with
  | none => exact h.dumping peer
  | some state =>
    exact ((h.dumping peer).step (R := proto.register) (H := H) (A := A) hs nofun).1

theorem Sound.handleDatedComparison (h : n.Sound proto hash W L H) (ranges : List A) (peer : P)
    (draw : Nat) : (n.handleDatedComparison proto ranges peer draw).Sound proto hash W L H := by
  unfold MapNode.handleDatedComparison
  split
  · exact h
  generalize proto.dated.protocolRound n.store.map ranges draw = answer
  have hreply : Sound proto hash W L H (if answer.1.isEmpty then n
      else n.spawn [⟨peer, .control (answer.1.map .entryFingerprint), false⟩]) := by
    split
    · exact h
    · apply h.spawn_one
      intro m hm
      obtain ⟨segment, _, rfl⟩ := List.mem_map.1 hm
      trivial
  simp only
  generalize (if answer.1.isEmpty then n
      else n.spawn [⟨peer, .control (answer.1.map .entryFingerprint), false⟩]) = n₁ at hreply
  have hdump : Sound proto hash W L H (if answer.2.isEmpty then n₁
      else n₁.startDump peer .dated answer.2) := by
    split
    · exact hreply
    · exact hreply.startDump peer _ _
  split
  · apply hdump.spawn_one
    intro m hm
    rw [List.mem_singleton.1 hm]
    trivial
  · exact hdump

theorem Sound.handleValueComparison (h : n.Sound proto hash W L H) (ranges : List A) (peer : P)
    (draw : Nat) : (n.handleValueComparison proto ranges peer draw).Sound proto hash W L H := by
  unfold MapNode.handleValueComparison
  split
  · exact h
  generalize proto.valueOnly.protocolRound n.store.projection ranges draw = answer
  have hreply : Sound proto hash W L H (if answer.1.isEmpty then n
      else n.spawn [⟨peer, .control (answer.1.map .stateFingerprint), false⟩]) := by
    split
    · exact h
    · apply h.spawn_one
      intro m hm
      obtain ⟨segment, _, rfl⟩ := List.mem_map.1 hm
      trivial
  simp only
  split
  · exact hreply
  · exact hreply.startDump peer _ _

/-- The acknowledgements for a batch are backed by the map before it and the map after it. -/
theorem Sound.applyDatedUpdates (h : n.Sound proto hash W L H) {updates : List (K × Entry T V)}
    (hu : ∀ kv ∈ updates, L kv.1 kv.2) (peer : P) (moment : Moment)
    (hH : ∀ k e, n.store.map.lookup k = some e → H k e)
    (hH' : ∀ k e, (n.applyDatedUpdates proto updates peer moment).store.map.lookup k = some e →
      H k e) : (n.applyDatedUpdates proto updates peer moment).Sound proto hash W L H := by
  unfold MapNode.applyDatedUpdates at hH' ⊢
  split
  · exact h
  next hne =>
  rw [if_neg hne] at hH'
  have hfilter : ∀ kv ∈ (filterDatedUpdates proto.register n.store.map updates).1, L kv.1 kv.2 :=
    fun kv hkv => hu kv (mem_filterDatedUpdates proto.register hkv)
  have hfiltered : ∀ ack ∈ (filterDatedUpdates proto.register n.store.map updates).2,
      Backed proto.register L H (ackMessage ack : MapMessage K V T A) := by
    rintro ⟨k, version⟩ hack
    obtain ⟨e, he, ht, hv⟩ := mem_filterDatedUpdates_acks hack
    exact backed_ackMessage (h.map k e he) ht hv (hH k e he) le_rfl
  generalize filterDatedUpdates proto.register n.store.map updates = filtered
    at hH' hfilter hfiltered
  simp only at hH' ⊢
  have hmerged : ∀ merged, merged = (if filtered.1.isEmpty then (n.store.toReplica, [])
      else n.store.toReplica.mergeDatedUpdates proto.register filtered.1) →
      (∀ k e, merged.1.map.lookup k = some e → L k e) ∧ merged.1.Mirrored ∧
      ∀ ack ∈ merged.2, ∃ e, L ack.1 e ∧ e.isTombstone = true ∧
        proto.register.versionHash e = ack.2 ∧
        HashMap.Covers Entry.stamp merged.1.map ack.1 e := by
    rintro merged rfl
    split
    · exact ⟨h.map, h.mirrored, List.forall_mem_nil _⟩
    · refine ⟨?_, (h.mirrored.mergeLoop proto.register filtered.1).recordChanges _, ?_⟩
      · intro k e he
        rcases Replica.mergeLoop_sound proto.register he with he | he
        · exact h.map k e he
        · exact hfilter _ he
      · rintro ⟨k, version⟩ hack
        obtain ⟨e, ht, hv, hfrom, hcovers⟩ := mem_mergeLoop_acks hack
        refine ⟨e, ?_, ht, hv, hcovers⟩
        rcases hfrom with hfrom | hfrom
        · exact h.map k e hfrom
        · exact hfilter _ hfrom
  generalize hm : (if filtered.1.isEmpty then (n.store.toReplica, [])
    else n.store.toReplica.mergeDatedUpdates proto.register filtered.1) = merged at hH' ⊢
  obtain ⟨hmap, hmirrored, hacks⟩ := hmerged merged hm.symm
  have hstored := h.withStore { n.store with toReplica := merged.1 } hmap hmirrored
  have hnoted : Sound proto hash W L H { n with
      pendingRepairs := n.pendingRepairs.notePendingRepair peer moment.now moment.repairInterval
      receivingBulkFrom := n.receivingBulkFrom.insert peer moment.now
      store := { n.store with toReplica := merged.1 } } :=
    ⟨hstored.recovery, hstored.tasks, hstored.map, hstored.mirrored, hstored.coalescer,
      hstored.dumping⟩
  split at hH'
  · next hempty =>
    rw [if_pos hempty]
    exact hnoted
  · next hsome =>
    rw [if_neg hsome]
    apply hnoted.spawn_one
    intro m hm
    obtain ⟨ack, hack, rfl⟩ := List.mem_map.1 hm
    rcases List.mem_append.1 hack with hack | hack
    · exact hfiltered ack hack
    · obtain ⟨e, he, ht, hv, e', he', hle⟩ := hacks ack hack
      exact backed_ackMessage he ht hv (hH' _ e' he') hle

theorem store_handleValueComparison (n : MapNode K V P T A) (ranges : List A)
    (peer : P) (draw : Nat) : (n.handleValueComparison proto ranges peer draw).store = n.store := by
  unfold MapNode.handleValueComparison
  split
  · rfl
  · simp only
    split <;> split <;> rfl

theorem store_handleDatedComparison (n : MapNode K V P T A) (ranges : List A) (peer : P)
    (draw : Nat) : (n.handleDatedComparison proto ranges peer draw).store = n.store := by
  unfold MapNode.handleDatedComparison
  split
  · rfl
  · simp only
    split <;> split <;> split <;> rfl

theorem Sound.recordCapability (h : n.Sound proto hash W L H) (peer : P) (now : Nat) :
    (n.recordCapability ports peer now).Sound proto hash W L H :=
  h.withEndpoint _ (h.recovery.pruned (RecoveryBook.pruned_recordCapability _ _ _ _ _))

theorem Sound.recordTombstoneAcks (h : n.Sound proto hash W L H) (peer : P)
    (acks : List (K × Nat)) :
    Sound proto hash W L H { n with store := n.store.recordTombstoneAcks peer acks } := by
  refine h.withStore _ ?_ (MemberReplica.mirrored_recordTombstoneAcks h.mirrored peer acks)
  rw [MemberReplica.map_recordTombstoneAcks]
  exact h.map

theorem Sound.handleBatch (h : n.Sound proto hash W L H) (ports : SendPorts)
    {batch : DecodedDatagram K (Entry T V) A} (hu : ∀ kv ∈ batch.datedUpdates, L kv.1 kv.2)
    (peer : P) (moment : Moment) (hH : ∀ k e, n.store.map.lookup k = some e → H k e)
    (hH' : ∀ k e, (n.handleBatch proto ports batch peer moment).store.map.lookup k = some e →
      H k e) : (n.handleBatch proto ports batch peer moment).Sound proto hash W L H := by
  unfold MapNode.handleBatch at hH' ⊢
  rw [store_handleValueComparison] at hH'
  apply Sound.handleValueComparison
  have hcapability : Sound proto hash W L H (if batch.selectiveRecoveryCapability then
      n.recordCapability ports peer moment.now else n) := by
    split
    · exact h.recordCapability peer moment.now
    · exact h
  have hsame : (if batch.selectiveRecoveryCapability then n.recordCapability ports peer moment.now
      else n).store = n.store := by
    split <;> rfl
  generalize (if batch.selectiveRecoveryCapability then n.recordCapability ports peer moment.now
    else n) = n₁ at hcapability hsame hH' ⊢
  refine (hcapability.recordTombstoneAcks peer _).handleDatedComparison _ peer _
    |>.applyDatedUpdates hu peer moment ?_ hH'
  rw [store_handleDatedComparison]
  simp only [MemberReplica.map_recordTombstoneAcks, hsame]
  exact hH

theorem Sound.complete (h : n.Sound proto hash W L H)
    (hp : proto.codec.Speaks (Backed proto.register L fun _ _ => True) payload) (sender : P)
    (moment : Moment) (hH : ∀ k e, n.store.map.lookup k = some e → H k e)
    (hH' : ∀ k e, (n.complete proto ports payload sender moment).store.map.lookup k = some e →
      H k e) : (n.complete proto ports payload sender moment).Sound proto hash W L H := by
  have hcleared := h.withRepairs (n.pendingRepairs.erase sender)
  unfold MapNode.complete MapNode.handleMessages at hH' ⊢
  simp only at hH' ⊢
  cases hd : decodeDatagram proto.codec payload with
  | none => exact hcleared
  | some batch =>
    have hu := (decodeDatagram_from hp hd).datedUpdates
    rw [hd] at hH'
    simp only at hH' ⊢
    split at hH'
    · next hspoke =>
      rw [if_pos hspoke]
      simp only [MemberReplica.map_join] at hH'
      have hhandled := hcleared.handleBatch ports hu sender moment hH hH'
      have hjoined := hhandled.withStore _ (by
        rw [MemberReplica.map_join _ sender]
        exact hhandled.map) (MemberReplica.mirrored_join hhandled.mirrored sender)
      exact ⟨hjoined.recovery, hjoined.tasks, hjoined.map, hjoined.mirrored, hjoined.coalescer,
        hjoined.dumping⟩
    · next hspoke =>
      rw [if_neg hspoke]
      exact hcleared.handleBatch ports hu sender moment hH hH'

inductive Receives (proto : Protocol K V T A) (ports : SendPorts) (n : MapNode K V P T A)
    (sender : P) (bytes : Bytes) (moment : Moment) :
    MapNode K V P T A × NodeOutput K V T → Prop where
  | dropped (filter : ReplayFilter P) :
    Receives proto ports n sender bytes moment ({ n with replay := filter }, {})
  | pending (hadmitted : (n.admitted ports sender bytes moment).2 = .ok payload)
    (hreplay : filter = (n.admitted ports sender bytes moment).1) :
    Receives proto ports n sender bytes moment
      ((n.framed ports filter sender payload.bytes moment).1,
        { datagrams := (n.framed ports filter sender payload.bytes moment).2 })
  | completed (hadmitted : (n.admitted ports sender bytes moment).2 = .ok payload)
    (hreplay : filter = (n.admitted ports sender bytes moment).1)
    (hlogical : (ports.receiveFrame n.endpoint sender payload.bytes moment.now).2.1 =
      some logical) :
    Receives proto ports n sender bytes moment
      ((n.framed ports filter sender payload.bytes moment).1.complete proto ports logical sender
          moment,
        { datagrams := (n.framed ports filter sender payload.bytes moment).2
          completed := [logical] })

theorem receives (proto : Protocol K V T A) (ports : SendPorts) (n : MapNode K V P T A) (sender : P)
    (bytes : Bytes) (moment : Moment) :
    Receives proto ports n sender bytes moment (n.receive proto ports sender bytes moment) := by
  unfold MapNode.receive
  split
  · exact .dropped n.replay
  simp only
  split
  · exact .dropped _
  · next payload hadmitted =>
    split
    · exact .pending hadmitted rfl
    · next logical hlogical => exact .completed hadmitted rfl hlogical

theorem Sound.framed (h : n.Sound proto ports.hash W L H) (replay : ReplayFilter P) (sender : P)
    (frame : Bytes) (moment : Moment) :
    (n.framed ports replay sender frame moment).1.Sound proto ports.hash W L H ∧
      ∀ datagram ∈ (n.framed ports replay sender frame moment).2, ports.Sealed W datagram := by
  obtain ⟨hrecovery, hframes⟩ := ports.receiveFrame_carries h.recovery sender frame moment.now
  have hreceived := h.withEndpoint { (ports.receiveFrame n.endpoint sender frame
    moment.now).1 with counter := (n.framed ports replay sender frame moment).1.endpoint.counter }
    hrecovery
  exact ⟨⟨hreceived.recovery, hreceived.tasks, hreceived.map, hreceived.mirrored,
    hreceived.coalescer, hreceived.dumping⟩, SendPorts.sealed_sendFrames hframes _⟩

/-- A datagram is handled soundly when the payload it completes, if any, is backed. -/
theorem Sound.receive (h : n.Sound proto ports.hash W L H)
    (hr : Receives proto ports n sender bytes moment (n', out))
    (hin : ∀ w ∈ out.completed,
      proto.codec.Speaks (Backed proto.register L fun _ _ => True) w)
    (hH : ∀ k e, n.store.map.lookup k = some e → H k e)
    (hH' : ∀ k e, n'.store.map.lookup k = some e → H k e) :
    n'.Sound proto ports.hash W L H ∧ ∀ datagram ∈ out.datagrams, ports.Sealed W datagram := by
  cases hr with
  | dropped replay =>
    exact ⟨⟨h.recovery, h.tasks, h.map, h.mirrored, h.coalescer, h.dumping⟩,
      List.forall_mem_nil _⟩
  | pending hadmitted hreplay => exact h.framed _ sender _ moment
  | completed hadmitted hreplay hlogical =>
    obtain ⟨hframed, hsealed⟩ := h.framed (n.admitted ports sender bytes moment).1 sender _ moment
    refine ⟨hreplay ▸ hframed.complete (hin _ List.mem_cons_self) sender moment hH (hreplay ▸ hH'),
      hreplay ▸ hsealed⟩

omit [LinearOrder K] [LinearOrder P] in
theorem speaks_initialRanges (n : MapNode K V P T A) :
    proto.codec.Speaks (Backed proto.register L H) (n.initialRanges proto ports) := by
  apply speaks_appendCapability fun _ => trivial
  apply MessageCodec.speaks_encodeAll
  intro m hm
  obtain ⟨segment, _, rfl⟩ := List.mem_map.1 hm
  trivial

theorem heldAck_backed {R : Rsos T V} {map : HashMap K (Entry T V)}
    (hL : ∀ k e, map.lookup k = some e → L k e) (hH : ∀ k e, map.lookup k = some e → H k e)
    {ack : MapMessage K V T A} (h : heldAck R map key = some ack) : Backed R L H ack := by
  obtain ⟨e, he, rfl⟩ := Option.map_eq_some_iff.1 h
  obtain ⟨he, ht⟩ := Option.filter_eq_some_iff.1 he
  exact ⟨e, hL _ _ he, ht, rfl, e, hH _ _ he, le_rfl⟩

/-- A round's acknowledgements are backed by the map it reads. -/
theorem resend_speaks {codec : MessageCodec (MapMessage K V T A)} {R : Rsos T V}
    {input : ResendInput K V T} (hL : ∀ k e, input.map.lookup k = some e → L k e)
    (hH : ∀ k e, input.map.lookup k = some e → H k e)
    (hb : codec.Speaks (Backed R L H) input.buf) (cursor : Option K) :
    codec.Speaks (Backed R L H) (resendHeldTombstoneAcks codec.encode R cursor input).1.buf := by
  rw [resend_buf]
  apply hb.append
  apply MessageCodec.speaks_encodeAll
  by_cases hne : sortedKeys input.live = []
  · have hempty : (sortedKeys input.live).isEmpty = true := by rw [hne]; rfl
    rw [resendHeldTombstoneAcks, if_pos hempty]
    exact List.forall_mem_nil _
  · intro m hm
    rw [(resends codec.encode R cursor hne).visits.acks] at hm
    obtain ⟨key, _, hack⟩ := List.mem_filterMap.1 hm
    exact heldAck_backed hL hH hack

theorem Sound.startReconciliation (h : n.Sound proto hash W L H) (targets : List P) (now : Nat)
    (hH : ∀ k e, n.store.map.lookup k = some e → H k e) :
    (n.startReconciliation proto ports targets now).Sound proto hash W L H := by
  unfold MapNode.startReconciliation
  apply Sound.spawn
  · exact ⟨h.recovery, h.tasks, h.map, h.mirrored, h.coalescer, h.dumping⟩
  · intro task ht
    obtain ⟨peer, _, rfl⟩ := List.mem_map.1 ht
    exact resend_speaks h.map hH n.speaks_initialRanges n.ackCursor

theorem Sound.retryDueRepairs (h : n.Sound proto hash W L H) (now interval : Nat) :
    (n.retryDueRepairs proto ports now interval).Sound proto hash W L H := by
  unfold MapNode.retryDueRepairs
  apply (h.withRepairs _).spawn
  intro task ht
  obtain ⟨peer, _, rfl⟩ := List.mem_map.1 ht
  exact n.speaks_initialRanges

theorem Sound.spawnBroadcast (h : n.Sound proto hash W L H) {keyValues : List (K × Entry T V)}
    (hk : ∀ kv ∈ keyValues, L kv.1 kv.2) (now : Nat) :
    (n.spawnBroadcast keyValues now).Sound proto hash W L H := by
  apply (h.withPeers _).spawn
  intro task ht
  obtain ⟨peer, _, rfl⟩ := List.mem_map.1 ht
  intro m hm
  obtain ⟨kv, hkv, rfl⟩ := List.mem_map.1 hm
  exact hk kv hkv

theorem Sound.broadcast (h : n.Sound proto hash W L H) {keyValues : List (K × Entry T V)}
    (hk : ∀ kv ∈ keyValues, L kv.1 kv.2) (claimed : Bool) (now : Nat) :
    (n.broadcast claimed now keyValues).Sound proto hash W L H := by
  unfold MapNode.broadcast
  split
  · exact h.spawnBroadcast hk now
  · exact h

theorem Sound.stepCoalescer (h : n.Sound proto hash W L H)
    (hs : n.stepCoalescer proto event claimed now = some n') (hq : ∀ kvs, event ≠ .queue kvs) :
    n'.Sound proto hash W L H := by
  obtain ⟨coalescer, hstep, hs⟩ := Option.bind_eq_some_iff.1 hs
  cases hs
  obtain ⟨hcoalescer, hbatches⟩ := h.coalescer.step hstep fun kvs he => absurd he (hq kvs)
  have hstepped : Sound proto hash W L H { n with coalescer := coalescer } :=
    ⟨h.recovery, h.tasks, h.map, h.mirrored, hcoalescer, h.dumping⟩
  generalize coalescer.broadcasts.drop n.coalescer.broadcasts.length = batches at hbatches ⊢
  generalize { n with coalescer := coalescer } = m at hstepped ⊢
  induction batches generalizing m with
  | nil => exact hstepped
  | cons batch batches ih =>
    exact ih (fun b hb => hbatches b (List.mem_cons_of_mem batch hb)) _
      (hstepped.broadcast (hbatches batch List.mem_cons_self) claimed now)

theorem Sound.stepDump (h : n.Sound proto hash W L H) (hs : n.stepDump peer event = some n')
    (ht : ∀ trees, event = .enumerate trees → trees.Holds L) : n'.Sound proto hash W L H := by
  obtain ⟨state, hstep, hs⟩ := Option.bind_eq_some_iff.1 hs
  cases hs
  obtain ⟨hstate, hsent⟩ := (h.dumping peer).step (R := proto.register) (H := H) (A := A) hstep ht
  apply (h.withDump peer hstate).spawn
  split
  · exact List.forall_mem_nil _
  · intro task htask
    rw [List.mem_singleton.1 htask]
    intro m hm
    obtain ⟨d, hd, rfl⟩ := List.mem_map.1 hm
    exact hsent d hd

/-- A task sends what it says; the payloads it hands over become part of `W`. -/
theorem Sound.runTask (h : n.Sound proto ports.hash W L H)
    (hspoken : task.outgoing.Says proto.codec (Backed proto.register L H))
    (hs : n.runTask proto ports task clock moment = .ok (n', out))
    (hW : ∀ w ∈ out.payloads, W w) :
    n'.Sound proto ports.hash W L H ∧ (∀ datagram ∈ out.datagrams, ports.Sealed W datagram) ∧
      ∀ w ∈ out.payloads, proto.codec.Speaks (Backed proto.register L H) w := by
  rw [MapNode.runTask] at hs
  cases hout : ports.handOut proto.codec n.endpoint.recovery task.peer clock task.outgoing with
  | error e =>
    rw [hout] at hs
    cases hs
  | ok handed =>
    rw [hout] at hs
    cases hs
    obtain ⟨hrecovery, hframes⟩ := SendPorts.handOut_carries h.recovery hout
    have hin : ∀ w, SendPorts.OrHanded W handed.payloads w → W w := by
      rintro w (hw | hw)
      · exact hw
      · exact hW w hw
    refine ⟨⟨hrecovery.mono hin, h.tasks, h.map, h.mirrored, h.coalescer, h.dumping⟩, ?_,
      SendPorts.handOut_speaks (fun _ => trivial) hspoken hout⟩
    intro datagram hd
    exact (SendPorts.sealed_sendFrames hframes _ datagram hd).mono hin

theorem Sound.call (h : n.Sound proto hash W L H) (call : LocalCall K V) (stamps : List T)
    (hw : ∀ kv ∈ call.writes n.store.toReplica stamps, L kv.1 kv.2) :
    Sound proto hash W L H
      { n with store := { n.store with toReplica := call.store n.store.toReplica stamps } } := by
  refine h.withStore _ ?_ (LocalCall.store_mirrored h.mirrored call stamps)
  intro k e he
  simp only [LocalCall.store_map] at he
  rcases HashMap.lookup_foldl_sound he with he | he
  · exact h.map k e he
  · exact hw _ he

/-- A step keeps a node sound, if the entries written locally are in `L`, the payloads handed over
in `W`, the maps before and after in `H`, and what is completed is backed. What it sends then
carries from `W`, and the payloads it hands over are backed. -/
theorem Sound.step (h : n.Sound proto ports.hash W L H)
    (hs : n.step proto ports event = some (n', out))
    (hwrites : ∀ kv ∈ out.writes, L kv.1 kv.2) (hW : ∀ w ∈ out.payloads, W w)
    (hin : ∀ w ∈ out.completed,
      proto.codec.Speaks (Backed proto.register L fun _ _ => True) w)
    (hH : ∀ k e, n.store.map.lookup k = some e → H k e)
    (hH' : ∀ k e, n'.store.map.lookup k = some e → H k e) :
    n'.Sound proto ports.hash W L H ∧ (∀ datagram ∈ out.datagrams, ports.Sealed W datagram) ∧
      ∀ w ∈ out.payloads, proto.codec.Speaks (Backed proto.register L H) w := by
  cases event with
  | datagram sender bytes moment =>
    have hr := receives proto ports n sender bytes moment
    rw [Option.some.inj hs] at hr
    obtain ⟨hsound, hsealed⟩ := h.receive hr hin hH hH'
    refine ⟨hsound, hsealed, ?_⟩
    cases hr <;> exact List.forall_mem_nil _
  | send i clock moment =>
    obtain ⟨task, htask, hs⟩ := Option.bind_eq_some_iff.1 hs
    have hmem := List.mem_of_getElem? htask
    have herased : Sound proto ports.hash W L H { n with tasks := n.tasks.eraseIdx i } :=
      ⟨h.recovery, fun t ht => h.tasks t (List.mem_of_mem_eraseIdx ht), h.map, h.mirrored,
        h.coalescer, h.dumping⟩
    cases hrun : ({ n with tasks := n.tasks.eraseIdx i } : MapNode K V P T A).runTask proto ports
        task clock moment with
    | error e =>
      rw [hrun] at hs
      cases hs
    | ok ran =>
      rw [hrun] at hs
      cases hs
      exact herased.runTask (h.tasks task hmem) hrun hW
  | call call stamps =>
    obtain ⟨coalescer, hstep, hs⟩ := Option.bind_eq_some_iff.1 hs
    cases hs
    have hcalled := h.call call stamps hwrites
    have hq := (h.coalescer.step hstep fun kvs he => by cases he; exact hwrites).1
    exact ⟨⟨hcalled.recovery, hcalled.tasks, hcalled.map, hcalled.mirrored, hq, hcalled.dumping⟩,
      List.forall_mem_nil _, List.forall_mem_nil _⟩
  | tryCall call stamps claimed now =>
    rw [MapNode.step] at hs
    split at hs
    · cases hs
      have hcalled := h.call call stamps hwrites
      refine ⟨?_, List.forall_mem_nil _, List.forall_mem_nil _⟩
      split
      · exact hcalled
      · exact hcalled.spawnBroadcast hwrites now
    · cases hs
      exact ⟨h, List.forall_mem_nil _, List.forall_mem_nil _⟩
  | coalesce event claimed now =>
    rw [MapNode.step] at hs
    split at hs
    · cases hs
    · next hq =>
      obtain ⟨m, hm, he⟩ := Option.map_eq_some_iff.1 hs
      cases he
      refine ⟨h.stepCoalescer hm ?_, List.forall_mem_nil _, List.forall_mem_nil _⟩
      rintro kvs rfl
      exact hq rfl
  | dump peer event =>
    rw [MapNode.step] at hs
    split at hs
    · cases hs
    · obtain ⟨m, hm, he⟩ := Option.map_eq_some_iff.1 hs
      cases he
      refine ⟨h.stepDump hm ?_, List.forall_mem_nil _, List.forall_mem_nil _⟩
      intro trees he
      cases event <;> cases he
      exact h.trees
  | round targets now =>
    cases hs
    exact ⟨h.startReconciliation targets now hH, List.forall_mem_nil _, List.forall_mem_nil _⟩
  | repair now interval =>
    cases hs
    exact ⟨h.retryDueRepairs now interval, List.forall_mem_nil _, List.forall_mem_nil _⟩
  | retryIncomplete now =>
    cases hs
    obtain ⟨hrecovery, hframes⟩ := ports.retryIdleIncomplete_carries h.recovery now
    exact ⟨⟨hrecovery, h.tasks, h.map, h.mirrored, h.coalescer, h.dumping⟩,
      SendPorts.sealed_sendFrames hframes _, List.forall_mem_nil _⟩
  | expire now =>
    cases hs
    exact ⟨h.withEndpoint _ (h.recovery.pruned (RecoveryBook.pruned_expire _ _ _)),
      List.forall_mem_nil _, List.forall_mem_nil _⟩
  | seed peer now =>
    cases hs
    exact ⟨h.withPeers _, List.forall_mem_nil _, List.forall_mem_nil _⟩
  | decommission peer =>
    cases hs
    have hremoved := h.withStore (n.store.decommissionPeer peer)
      (MemberReplica.map_decommissionPeer n.store peer ▸ h.map)
      (MemberReplica.mirrored_decommissionPeer h.mirrored peer)
    exact ⟨⟨hremoved.recovery, hremoved.tasks, hremoved.map, hremoved.mirrored, hremoved.coalescer,
      hremoved.dumping⟩, List.forall_mem_nil _, List.forall_mem_nil _⟩

end MapNode

end Reconcile
