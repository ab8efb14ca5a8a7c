import Reconcile.Entry
import Reconcile.Lib.Fair
import Reconcile.Lib.HashMap

namespace Reconcile
open Lib
set_option autoImplicit true

inductive QueueCall (K V T : Type) where
  | reading (keyValues : List (K × Entry T V))
  | broadcasting (keyValues : List (K × Entry T V))
  | merging (keyValues : List (K × Entry T V)) (window : Nat)
  | spawning (window : Nat)
  deriving DecidableEq

inductive FlushTask (K V T : Type) where
  | sleeping (window : Nat)
  | broadcasting (batch : List (K × Entry T V))
  deriving DecidableEq

/-- The window and the buffer behind their locks, the calls and tasks in progress, and the batches
handed to `broadcast` as the updates they carry. A task has the number of the call that spawned it.
`maker` is the call that found the buffer empty last. -/
structure Coalescer (K V T : Type) where
  window : Nat
  pending : HashMap K (Entry T V) := ∅
  calls : HashMap Nat (QueueCall K V T) := ∅
  tasks : HashMap Nat (FlushTask K V T) := ∅
  started : Nat := 0
  broadcasts : List (List (K × Entry T V)) := []
  maker : Option Nat := none

inductive CoalesceEvent (K V T : Type) where
  | queue (keyValues : List (K × Entry T V))
  | call (id : Nat)
  | flush (id : Nat)
  | setWindow (window : Nat)
  deriving DecidableEq

namespace Coalescer

variable {K V T : Type} [DecidableEq K] [LinearOrder T] (M : Merge T V)

def mergeInto (buffer : HashMap K (Entry T V)) (kv : K × Entry T V) : HashMap K (Entry T V) :=
  match buffer.lookup kv.1 with
  | some existing => buffer.insert kv.1 (M.merge existing kv.2)
  | none => buffer.insert kv.1 kv.2

def mergeAll (buffer : HashMap K (Entry T V)) (keyValues : List (K × Entry T V)) :
    HashMap K (Entry T V) := keyValues.foldl (mergeInto M) buffer

/-- The next step of a call. A window of zero is read as "broadcast at once", whatever the window
becomes before the call goes on; the task is spawned after the guard is released. -/
def stepCall (s : Coalescer K V T) (id : Nat) : QueueCall K V T → Coalescer K V T
  | .reading keyValues =>
    { s with
      calls := s.calls.insert id
        (if s.window = 0 then .broadcasting keyValues else .merging keyValues s.window) }
  | .broadcasting keyValues =>
    { s with calls := s.calls.erase id, broadcasts := s.broadcasts ++ [keyValues] }
  | .merging keyValues window =>
    let merged := mergeAll M s.pending keyValues
    if s.pending.entries.isEmpty then
      { s with pending := merged, calls := s.calls.insert id (.spawning window), maker := some id }
    else { s with pending := merged, calls := s.calls.erase id }
  | .spawning window =>
    { s with calls := s.calls.erase id, tasks := s.tasks.insert id (.sleeping window) }

/-- The next step of a task: the buffer is taken when the sleep is over. -/
def stepTask (s : Coalescer K V T) (id : Nat) : FlushTask K V T → Coalescer K V T
  | .sleeping _ =>
    if s.pending.entries.isEmpty then { s with tasks := s.tasks.erase id }
    else
      { s with pending := ∅, tasks := s.tasks.insert id (.broadcasting s.pending.toList) }
  | .broadcasting batch =>
    { s with tasks := s.tasks.erase id, broadcasts := s.broadcasts ++ [batch] }

def step (s : Coalescer K V T) : CoalesceEvent K V T → Option (Coalescer K V T)
  | .queue keyValues =>
    if keyValues.isEmpty then some s
    else
      some { s with
        calls := s.calls.insert s.started (.reading keyValues)
        started := s.started + 1 }
  | .call id => (s.calls.lookup id).map (stepCall M s id)
  | .flush id => (s.tasks.lookup id).map (stepTask s id)
  | .setWindow window => some { s with window := window }

/-- The steps of the calls and tasks in progress; a live runtime takes each of them in time. -/
def owes (s : Coalescer K V T) : List (CoalesceEvent K V T) :=
  s.calls.keys.map .call ++ s.tasks.keys.map .flush

variable {M : Merge T V} {s s' : Coalescer K V T}

variable {buffer : HashMap K (Entry T V)} {k : K} {e e' : Entry T V}

def Carries (batch : List (K × Entry T V)) (k : K) (e : Entry T V) : Prop :=
  ∃ e', (k, e') ∈ batch ∧ e.stamp ≤ e'.stamp

def Buffers (buffer : HashMap K (Entry T V)) (k : K) (e : Entry T V) : Prop :=
  ∃ e', buffer.lookup k = some e' ∧ e.stamp ≤ e'.stamp

theorem lookup_mergeInto (M : Merge T V) (buffer : HashMap K (Entry T V)) (kv : K × Entry T V)
    (k : K) : (mergeInto M buffer kv).lookup k =
      if k = kv.1 then some (((buffer.lookup kv.1).map (M.merge · kv.2)).getD kv.2)
      else buffer.lookup k := by
  rw [mergeInto]
  split
  · next existing h => rw [HashMap.lookup_insert_eq, h, Option.map_some, Option.getD_some]
  · next h => rw [HashMap.lookup_insert_eq, h, Option.map_none, Option.getD_none]

theorem Buffers.mergeInto (h : Buffers buffer k e) (kv : K × Entry T V) :
    Buffers (mergeInto M buffer kv) k e := by
  obtain ⟨e', he', hle⟩ := h
  by_cases hk : k = kv.1
  · subst hk
    refine ⟨M.merge e' kv.2, ?_, hle.trans (M.left_le_merge e' kv.2)⟩
    rw [lookup_mergeInto, if_pos rfl, he', Option.map_some, Option.getD_some]
  · exact ⟨e', by rw [lookup_mergeInto, if_neg hk, he'], hle⟩

theorem buffers_mergeInto (M : Merge T V) (buffer : HashMap K (Entry T V)) (k : K)
    (e : Entry T V) : Buffers (Coalescer.mergeInto M buffer (k, e)) k e := by
  cases h : buffer.lookup k with
  | none => exact ⟨e, by rw [lookup_mergeInto, if_pos rfl, h]; rfl, le_rfl⟩
  | some e' =>
    exact ⟨M.merge e' e, by rw [lookup_mergeInto, if_pos rfl, h]; rfl, M.right_le_merge e' e⟩

theorem Buffers.mono (h : Buffers buffer k e') (hle : e.stamp ≤ e'.stamp) :
    Buffers buffer k e := by
  obtain ⟨e'', he'', hle'⟩ := h
  exact ⟨e'', he'', hle.trans hle'⟩

theorem Buffers.mergeAll (h : Buffers buffer k e) (keyValues : List (K × Entry T V)) :
    Buffers (mergeAll M buffer keyValues) k e := by
  induction keyValues generalizing buffer with
  | nil => exact h
  | cons kv keyValues ih => exact ih (h.mergeInto kv)

theorem Carries.buffers (h : Carries keyValues k e) (M : Merge T V)
    (buffer : HashMap K (Entry T V)) : Buffers (Coalescer.mergeAll M buffer keyValues) k e := by
  obtain ⟨e', hmem, hle⟩ := h
  refine Buffers.mono ?_ hle
  induction keyValues generalizing buffer with
  | nil => cases hmem
  | cons kv keyValues ih =>
    rcases List.mem_cons.1 hmem with rfl | hmem
    · exact (buffers_mergeInto M buffer k e').mergeAll keyValues
    · exact ih _ hmem

theorem Buffers.carries (h : Buffers buffer k e) : Carries buffer.toList k e := by
  obtain ⟨e', he', hle⟩ := h
  exact ⟨e', (HashMap.mem_toList ..).2 he', hle⟩

theorem Buffers.not_isEmpty (h : Buffers buffer k e) : buffer.entries.isEmpty = false := by
  obtain ⟨e', he', -⟩ := h.carries
  cases hp : buffer.entries with
  | nil =>
    rw [HashMap.toList, hp] at he'
    cases he'
  | cons => rfl

inductive Moves (M : Merge T V) (s : Coalescer K V T) :
    CoalesceEvent K V T → Coalescer K V T → Prop where
  | ignored : Moves M s (.queue []) s
  | queued (hne : keyValues ≠ []) : Moves M s (.queue keyValues)
      { s with
        calls := s.calls.insert s.started (.reading keyValues)
        started := s.started + 1 }
  | read (hc : s.calls.lookup c = some (.reading keyValues))
      (hstage : stage = if s.window = 0 then .broadcasting keyValues
        else .merging keyValues s.window) :
    Moves M s (.call c) { s with calls := s.calls.insert c stage }
  | broadcast (hc : s.calls.lookup c = some (.broadcasting keyValues)) : Moves M s (.call c)
      { s with calls := s.calls.erase c, broadcasts := s.broadcasts ++ [keyValues] }
  | first (hc : s.calls.lookup c = some (.merging keyValues w))
      (hempty : s.pending.entries.isEmpty = true) : Moves M s (.call c)
      { s with
        pending := mergeAll M s.pending keyValues
        calls := s.calls.insert c (.spawning w)
        maker := some c }
  | joined (hc : s.calls.lookup c = some (.merging keyValues w))
      (hne : s.pending.entries.isEmpty = false) : Moves M s (.call c)
      { s with pending := mergeAll M s.pending keyValues, calls := s.calls.erase c }
  | spawned (hc : s.calls.lookup c = some (.spawning w)) : Moves M s (.call c)
      { s with calls := s.calls.erase c, tasks := s.tasks.insert c (.sleeping w) }
  | woke (ht : s.tasks.lookup c = some (.sleeping w))
      (hempty : s.pending.entries.isEmpty = true) :
    Moves M s (.flush c) { s with tasks := s.tasks.erase c }
  | took (ht : s.tasks.lookup c = some (.sleeping w))
      (hne : s.pending.entries.isEmpty = false) : Moves M s (.flush c)
      { s with pending := ∅, tasks := s.tasks.insert c (.broadcasting s.pending.toList) }
  | sent (ht : s.tasks.lookup c = some (.broadcasting batch)) : Moves M s (.flush c)
      { s with tasks := s.tasks.erase c, broadcasts := s.broadcasts ++ [batch] }
  | changed (w : Nat) : Moves M s (.setWindow w) { s with window := w }

theorem step_moves (h : s.step M ev = some s') : Moves M s ev s' := by
  cases ev with
  | queue keyValues =>
    rw [step] at h
    split at h
    · next hempty =>
      cases h
      rw [List.isEmpty_iff.1 hempty]
      exact .ignored
    · next hne =>
      cases h
      exact .queued (by simpa using hne)
  | call c =>
    obtain ⟨stage, hc, rfl⟩ := Option.map_eq_some_iff.1 h
    cases stage with
    | reading keyValues => exact .read hc rfl
    | broadcasting keyValues => exact .broadcast hc
    | merging keyValues window =>
      rw [stepCall]
      split
      · next hempty => exact .first hc hempty
      · next hne => exact .joined hc (by simpa using hne)
    | spawning window => exact .spawned hc
  | flush c =>
    obtain ⟨stage, ht, rfl⟩ := Option.map_eq_some_iff.1 h
    cases stage with
    | sleeping window =>
      rw [stepTask]
      split
      · next hempty => exact .woke ht hempty
      · next hne => exact .took ht (by simpa using hne)
    | broadcasting batch => exact .sent ht
  | setWindow window =>
    cases h
    exact .changed window

/-- Numbers are not used twice, and while the buffer is not empty the call that made it so is about
to spawn its task or the task sleeps. -/
structure Sound (s : Coalescer K V T) : Prop where
  fresh : ∀ c, s.started ≤ c → s.calls.lookup c = none ∧ s.tasks.lookup c = none
  apart : ∀ c stage, s.calls.lookup c = some stage → s.tasks.lookup c = none
  scheduled : s.pending.entries.isEmpty = false → ∃ c, s.maker = some c ∧
    ((∃ window, s.calls.lookup c = some (.spawning window)) ∨
      ∃ window, s.tasks.lookup c = some (.sleeping window))

omit [DecidableEq K] [LinearOrder T] in
theorem Sound.started_ne (h : Sound s) (hc : s.calls.lookup c = some stage) : c ≠ s.started := by
  rintro rfl
  rw [(h.fresh _ le_rfl).1] at hc
  cases hc

theorem Moves.calls (h : Moves M s ev s') (hs : Sound s) (hc : s.calls.lookup c = some stage)
    (hev : ev ≠ .call c) : s'.calls.lookup c = some stage := by
  have hother {c' : Nat} (he : (.call c' : CoalesceEvent K V T) ≠ .call c) : c ≠ c' := by
    rintro rfl
    exact he rfl
  cases h with
  | ignored => exact hc
  | queued =>
    rw [HashMap.lookup_insert_eq, if_neg (hs.started_ne hc)]
    exact hc
  | read => rw [HashMap.lookup_insert_eq, if_neg (hother hev), hc]
  | broadcast => rw [HashMap.lookup_erase_eq, if_neg (hother hev), hc]
  | first => rw [HashMap.lookup_insert_eq, if_neg (hother hev), hc]
  | joined => rw [HashMap.lookup_erase_eq, if_neg (hother hev), hc]
  | spawned => rw [HashMap.lookup_erase_eq, if_neg (hother hev), hc]
  | woke => exact hc
  | took => exact hc
  | sent => exact hc
  | changed => exact hc

theorem Moves.tasks (h : Moves M s ev s') (hs : Sound s) (ht : s.tasks.lookup c = some stage)
    (hev : ev ≠ .flush c) : s'.tasks.lookup c = some stage := by
  have hother {c' : Nat} (he : (.flush c' : CoalesceEvent K V T) ≠ .flush c) : c ≠ c' := by
    rintro rfl
    exact he rfl
  cases h with
  | ignored => exact ht
  | queued => exact ht
  | read => exact ht
  | broadcast => exact ht
  | first => exact ht
  | joined => exact ht
  | spawned hc =>
    rw [HashMap.lookup_insert_eq, if_neg, ht]
    rintro rfl
    rw [hs.apart _ _ hc] at ht
    cases ht
  | woke => rw [HashMap.lookup_erase_eq, if_neg (hother hev), ht]
  | took => rw [HashMap.lookup_insert_eq, if_neg (hother hev), ht]
  | sent => rw [HashMap.lookup_erase_eq, if_neg (hother hev), ht]
  | changed => exact ht

theorem step_call (h : s.step M (.call c) = some s') (hc : s.calls.lookup c = some stage) :
    s' = stepCall M s c stage := by
  rw [step, hc] at h
  exact (Option.some.inj h).symm

theorem step_flush (h : s.step M (.flush c) = some s') (ht : s.tasks.lookup c = some stage) :
    s' = stepTask s c stage := by
  rw [step, ht] at h
  exact (Option.some.inj h).symm

/-- No step but the one that empties the buffer ends the wait for its flush. -/
theorem Sound.still_scheduled (hs : Sound s) (h : s.step M ev = some s')
    (hne : s.pending.entries.isEmpty = false) (hne' : s'.pending.entries.isEmpty = false) :
    ∃ c, s.maker = some c ∧ ((∃ w, s'.calls.lookup c = some (.spawning w)) ∨
      ∃ w, s'.tasks.lookup c = some (.sleeping w)) := by
  obtain ⟨c, hmaker, ⟨w, hc⟩ | ⟨w, ht⟩⟩ := hs.scheduled hne
  · by_cases hev : ev = .call c
    · subst hev
      rw [step_call h hc]
      exact ⟨c, hmaker, .inr ⟨w, AList.lookup_insert _⟩⟩
    · exact ⟨c, hmaker, .inl ⟨w, (step_moves h).calls hs hc hev⟩⟩
  · by_cases hev : ev = .flush c
    · subst hev
      rw [step_flush h ht, stepTask, hne] at hne'
      cases hne'
    · exact ⟨c, hmaker, .inr ⟨w, (step_moves h).tasks hs ht hev⟩⟩

theorem Sound.step (hs : Sound s) (h : s.step M ev = some s') : Sound s' where
  fresh := by
    have hfresh := hs.fresh
    cases step_moves h <;> grind [HashMap.lookup_insert_eq, HashMap.lookup_erase_eq]
  apart := by
    have hfresh := hs.fresh
    have hapart := hs.apart
    cases step_moves h <;> grind [HashMap.lookup_insert_eq, HashMap.lookup_erase_eq]
  scheduled := by
    intro hne'
    have hstill := fun hne => hs.still_scheduled h hne hne'
    cases step_moves h with
    | first => exact ⟨_, rfl, .inl ⟨_, AList.lookup_insert _⟩⟩
    | took => cases hne'
    | joined _ hne => exact hstill hne
    | _ => exact hstill hne'

theorem sound_of_runs (h : Runs (Coalescer.step M) { window := w } es s) : Sound s := by
  refine h.invariant (fun _ s => Sound s) ⟨fun _ _ => ⟨rfl, rfl⟩, ?_, ?_⟩ ?_
  · rintro _ _ ⟨⟩
  · rintro ⟨⟩
  · intro es s ev s' hs hstep
    exact hs.step hstep

def Sent (n : Nat) (k : K) (e : Entry T V) (s : Coalescer K V T) : Prop :=
  ∃ batch ∈ s.broadcasts.drop n, Carries batch k e

def held : QueueCall K V T → List (K × Entry T V)
  | .reading keyValues => keyValues
  | .broadcasting keyValues => keyValues
  | .merging keyValues _ => keyValues
  | .spawning _ => []

def InCall (c : Nat) (stage : QueueCall K V T) (k : K) (e : Entry T V) (s : Coalescer K V T) :
    Prop := s.calls.lookup c = some stage ∧ Carries (held stage) k e

def InTask (c : Nat) (batch : List (K × Entry T V)) (k : K) (e : Entry T V)
    (s : Coalescer K V T) : Prop :=
  s.tasks.lookup c = some (.broadcasting batch) ∧ Carries batch k e

theorem Moves.broadcasts (h : Moves M s ev s') : s.broadcasts <+: s'.broadcasts := by
  cases h with
  | broadcast => exact List.prefix_append ..
  | sent => exact List.prefix_append ..
  | _ => exact List.prefix_rfl

theorem Moves.length_le (h : Moves M s ev s') (hn : n ≤ s.broadcasts.length) :
    n ≤ s'.broadcasts.length := hn.trans h.broadcasts.length_le

omit [DecidableEq K] in
theorem sent_of_append (hs : s'.broadcasts = s.broadcasts ++ [batch])
    (hn : n ≤ s.broadcasts.length) (hcarries : Carries batch k e) : Sent n k e s' := by
  refine ⟨batch, ?_, hcarries⟩
  rw [hs, List.drop_append_of_le_length hn]
  exact List.mem_append_right _ List.mem_cons_self

theorem Buffers.moves (h : Buffers s.pending k e) (hm : Moves M s ev s') :
    Buffers s'.pending k e ∨ ∃ c batch, InTask c batch k e s' := by
  cases hm with
  | first => exact .inl (h.mergeAll _)
  | joined => exact .inl (h.mergeAll _)
  | took => exact .inr ⟨_, _, AList.lookup_insert _, h.carries⟩
  | _ => exact .inl h

theorem InCall.step (h : InCall c stage k e s) (hn : n ≤ s.broadcasts.length)
    (hstep : s.step M (.call c) = some s') :
    Sent n k e s' ∨ Buffers s'.pending k e ∨ ∃ stage', InCall c stage' k e s' := by
  obtain ⟨hstage, hcarries⟩ := h
  rw [step_call hstep hstage]
  cases stage with
  | reading keyValues =>
    refine .inr (.inr ⟨_, AList.lookup_insert _, ?_⟩)
    split <;> exact hcarries
  | broadcasting keyValues => exact .inl (sent_of_append rfl hn hcarries)
  | merging keyValues w =>
    have hbuffers := hcarries.buffers M s.pending
    rw [stepCall]
    split <;> exact .inr (.inl hbuffers)
  | spawning w =>
    obtain ⟨_, hnil, -⟩ := hcarries
    cases hnil

theorem InTask.step (h : InTask c batch k e s) (hn : n ≤ s.broadcasts.length)
    (hstep : s.step M (.flush c) = some s') : Sent n k e s' := by
  rw [step_flush hstep h.1]
  exact sent_of_append rfl hn h.2

/-- A queued entry is broadcast, in the buffer, with a call or with a task. -/
def Kept (n : Nat) (k : K) (e : Entry T V) (s : Coalescer K V T) : Prop :=
  Sent n k e s ∨ Buffers s.pending k e ∨ (∃ c stage, InCall c stage k e s) ∨
    ∃ c batch, InTask c batch k e s

theorem Kept.step (h : Kept n k e s) (hs : Sound s) (hn : n ≤ s.broadcasts.length)
    (hstep : s.step M ev = some s') : Kept n k e s' := by
  have hm := step_moves hstep
  rcases h with ⟨batch, hmem, hcarries⟩ | hbuffers | ⟨c, stage, hcall⟩ | ⟨c, batch, htask⟩
  · obtain ⟨later, hlater⟩ := hm.broadcasts
    refine .inl ⟨batch, ?_, hcarries⟩
    rw [← hlater, List.drop_append]
    exact List.mem_append_left _ hmem
  · exact .inr ((hbuffers.moves hm).imp_right .inr)
  · by_cases hev : ev = .call c
    · subst hev
      exact (hcall.step hn hstep).imp_right (·.imp_right fun h => .inl ⟨c, h⟩)
    · exact .inr (.inr (.inl ⟨c, stage, hm.calls hs hcall.1 hev, hcall.2⟩))
  · by_cases hev : ev = .flush c
    · subst hev
      exact .inl (htask.step hn hstep)
    · exact .inr (.inr (.inr ⟨c, batch, hm.tasks hs htask.1 hev, htask.2⟩))

theorem step_queue (s : Coalescer K V T) (hmem : (k, e) ∈ keyValues) :
    ∃ s', s.step M (.queue keyValues) = some s' ∧ s'.broadcasts = s.broadcasts ∧
      InCall s.started (.reading keyValues) k e s' := by
  have hne : keyValues.isEmpty = false := by
    cases keyValues with
    | nil => cases hmem
    | cons => rfl
  rw [step, if_neg (by rw [hne]; exact Bool.false_ne_true)]
  exact ⟨_, rfl, rfl, AList.lookup_insert _, e, hmem, le_rfl⟩

/-- In every run an entry that was queued is broadcast after that, in the buffer, with a call or
with a task. -/
theorem kept_of_runs (hs : Sound s) (h : Runs (Coalescer.step M) s (.queue keyValues :: es) s')
    (hmem : (k, e) ∈ keyValues) : Kept s.broadcasts.length k e s' := by
  obtain ⟨s₁, hstep, hlog, hcall⟩ := step_queue (M := M) s hmem
  rw [← List.nil_append (_ :: _)] at h
  have hrest := h.after .start hstep
  refine (hrest.invariant (fun _ t => Sound t ∧ s.broadcasts.length ≤ t.broadcasts.length ∧
    Kept s.broadcasts.length k e t) ⟨hs.step hstep, (congrArg List.length hlog).ge,
      .inr (.inr (.inl ⟨_, _, hcall⟩))⟩ ?_).2.2
  rintro es t ev t' ⟨ht, hn, hkept⟩ hstep
  exact ⟨ht.step hstep, (step_moves hstep).length_le hn, hkept.step ht hn hstep⟩

section Live

variable {run : InfiniteRun (Coalescer.step M) ({ window := w } : Coalescer K V T)}

theorem run_sound (run : InfiniteRun (Coalescer.step M) ({ window := w } : Coalescer K V T))
    (n : Nat) : Sound (run.state n) := by
  obtain ⟨es, h⟩ := run.runs n
  exact sound_of_runs h

omit [DecidableEq K] [LinearOrder T] in
theorem call_mem_owes (hc : s.calls.lookup c = some stage) : .call c ∈ s.owes := by
  refine List.mem_append_left _ (List.mem_map_of_mem ?_)
  exact AList.mem_keys.1 (AList.lookup_isSome.1 (by rw [hc]; rfl))

omit [DecidableEq K] [LinearOrder T] in
theorem flush_mem_owes (ht : s.tasks.lookup c = some stage) : .flush c ∈ s.owes := by
  refine List.mem_append_right _ (List.mem_map_of_mem ?_)
  exact AList.mem_keys.1 (AList.lookup_isSome.1 (by rw [ht]; rfl))

def Since (n : Nat) (P : Coalescer K V T → Prop) (s : Coalescer K V T) : Prop :=
  n ≤ s.broadcasts.length ∧ P s

theorem task_leadsTo (hfair : run.Fair fun s ev => ev ∈ s.owes) (n c : Nat)
    (batch : List (K × Entry T V)) (k : K) (e : Entry T V) :
    run.LeadsTo (Since n (InTask c batch k e)) (Sent n k e) := by
  refine hfair.leadsTo (run_sound run) (.flush c) ?_ ?_ ?_
  · rintro s - ⟨-, htask⟩
    exact flush_mem_owes htask.1
  · rintro s s' - ⟨hn, htask⟩ hstep
    exact htask.step hn hstep
  · rintro s ev s' hs ⟨hn, htask⟩ hev hstep
    have hm := step_moves hstep
    exact .inl ⟨hm.length_le hn, hm.tasks hs htask.1 hev, htask.2⟩

def Asleep (c : Nat) (k : K) (e : Entry T V) (s : Coalescer K V T) : Prop :=
  (∃ w, s.tasks.lookup c = some (.sleeping w)) ∧ Buffers s.pending k e

def Taken (k : K) (e : Entry T V) (s : Coalescer K V T) : Prop := ∃ c batch, InTask c batch k e s

theorem asleep_leadsTo (hfair : run.Fair fun s ev => ev ∈ s.owes) (n c : Nat) (k : K)
    (e : Entry T V) : run.LeadsTo (Since n (Asleep c k e)) (Since n (Taken k e)) := by
  refine hfair.leadsTo (run_sound run) (.flush c) ?_ ?_ ?_
  · rintro s - ⟨-, ⟨w, ht⟩, -⟩
    exact flush_mem_owes ht
  · rintro s s' - ⟨hn, ⟨w, ht⟩, hbuffers⟩ hstep
    refine ⟨(step_moves hstep).length_le hn, ?_⟩
    rw [step_flush hstep ht, stepTask, hbuffers.not_isEmpty]
    exact ⟨c, _, AList.lookup_insert _, hbuffers.carries⟩
  · rintro s ev s' hs ⟨hn, ⟨w, ht⟩, hbuffers⟩ hev hstep
    have hm := step_moves hstep
    rcases hbuffers.moves hm with hbuffers | htaken
    · exact .inl ⟨hm.length_le hn, ⟨w, hm.tasks hs ht hev⟩, hbuffers⟩
    · exact .inr ⟨hm.length_le hn, htaken⟩

/-- The call that made the buffer non-empty spawns its task, unless another task takes the buffer
first. -/
theorem spawning_leadsTo (hfair : run.Fair fun s ev => ev ∈ s.owes) (n c w : Nat) (k : K)
    (e : Entry T V) :
    run.LeadsTo (Since n fun s => s.calls.lookup c = some (.spawning w) ∧ Buffers s.pending k e)
      fun s => Since n (Asleep c k e) s ∨ Since n (Taken k e) s := by
  refine hfair.leadsTo (run_sound run) (.call c) ?_ ?_ ?_
  · rintro s - ⟨-, hc, -⟩
    exact call_mem_owes hc
  · rintro s s' - ⟨hn, hc, hbuffers⟩ hstep
    refine .inl ⟨(step_moves hstep).length_le hn, ?_⟩
    rw [step_call hstep hc]
    exact ⟨⟨w, AList.lookup_insert _⟩, hbuffers⟩
  · rintro s ev s' hs ⟨hn, hc, hbuffers⟩ hev hstep
    have hm := step_moves hstep
    rcases hbuffers.moves hm with hbuffers | htaken
    · exact .inl ⟨hm.length_le hn, hm.calls hs hc hev, hbuffers⟩
    · exact .inr (.inr ⟨hm.length_le hn, htaken⟩)

theorem taken_leadsTo (hfair : run.Fair fun s ev => ev ∈ s.owes) (n : Nat) (k : K)
    (e : Entry T V) : run.LeadsTo (Since n (Taken k e)) (Sent n k e) := by
  rintro m ⟨hn, c, batch, htask⟩
  exact task_leadsTo hfair n c batch k e m ⟨hn, htask⟩

theorem buffers_leadsTo (hfair : run.Fair fun s ev => ev ∈ s.owes) (n : Nat) (k : K)
    (e : Entry T V) : run.LeadsTo (Since n fun s => Buffers s.pending k e) (Sent n k e) := by
  have hasleep (c : Nat) := (asleep_leadsTo hfair n c k e).trans (taken_leadsTo hfair n k e)
  rintro m ⟨hn, hbuffers⟩
  obtain ⟨c, -, ⟨w, hc⟩ | ⟨w, ht⟩⟩ := (run_sound run m).scheduled hbuffers.not_isEmpty
  · exact ((spawning_leadsTo hfair n c w k e).trans
      ((hasleep c).or (taken_leadsTo hfair n k e))) m ⟨hn, hc, hbuffers⟩
  · exact hasleep c m ⟨hn, ⟨w, ht⟩, hbuffers⟩

theorem call_leadsTo (hfair : run.Fair fun s ev => ev ∈ s.owes) {Q : Coalescer K V T → Prop}
    (n c : Nat) (stage : QueueCall K V T) (k : K) (e : Entry T V)
    (hQ : ∀ s, n ≤ s.broadcasts.length → InCall c stage k e s → Q (stepCall M s c stage)) :
    run.LeadsTo (Since n (InCall c stage k e)) Q := by
  refine hfair.leadsTo (run_sound run) (.call c) ?_ ?_ ?_
  · rintro s - ⟨-, hcall⟩
    exact call_mem_owes hcall.1
  · rintro s s' - ⟨hn, hcall⟩ hstep
    rw [step_call hstep hcall.1]
    exact hQ s hn hcall
  · rintro s ev s' hs ⟨hn, hcall⟩ hev hstep
    have hm := step_moves hstep
    exact .inl ⟨hm.length_le hn, hm.calls hs hcall.1 hev, hcall.2⟩

theorem merging_leadsTo (hfair : run.Fair fun s ev => ev ∈ s.owes) (n c w : Nat)
    (keyValues : List (K × Entry T V)) (k : K) (e : Entry T V) :
    run.LeadsTo (Since n (InCall c (.merging keyValues w) k e)) (Sent n k e) := by
  refine (call_leadsTo hfair n c _ k e fun s hn hcall => ?_).trans (buffers_leadsTo hfair n k e)
  have hbuffers := hcall.2.buffers M s.pending
  rw [stepCall]
  split <;> exact ⟨hn, hbuffers⟩

theorem reading_leadsTo (hfair : run.Fair fun s ev => ev ∈ s.owes) (n c : Nat)
    (keyValues : List (K × Entry T V)) (k : K) (e : Entry T V) :
    run.LeadsTo (Since n (InCall c (.reading keyValues) k e)) (Sent n k e) := by
  have hbroadcasting : run.LeadsTo (Since n (InCall c (.broadcasting keyValues) k e))
      (Sent n k e) :=
    call_leadsTo hfair n c _ k e fun s hn hcall => sent_of_append rfl hn hcall.2
  have hmerging : run.LeadsTo (fun s => ∃ w, Since n (InCall c (.merging keyValues w) k e) s)
      (Sent n k e) := .exists fun w => merging_leadsTo hfair n c w keyValues k e
  refine (call_leadsTo hfair n c _ k e fun s hn hcall => ?_).trans (hbroadcasting.or hmerging)
  by_cases hw : s.window = 0
  · exact .inl ⟨hn, by rw [stepCall, if_pos hw]; exact AList.lookup_insert _, hcall.2⟩
  · exact .inr ⟨s.window, hn, by rw [stepCall, if_neg hw]; exact AList.lookup_insert _, hcall.2⟩

end Live

/-- In every run, while the buffer is not empty the call that made it so is about to spawn a flush
task or its task is outstanding; no queued entry gets lost on the way; and if the calls and tasks
in progress go on, every queued entry is handed to a later broadcast, with an entry of its key whose
stamp is at least as great. -/
theorem queued_entries_broadcast (M : Merge T V) (w : Nat) :
    (∀ es (s : Coalescer K V T), Runs (Coalescer.step M) { window := w } es s →
      s.pending.entries.isEmpty = false → ∃ c, s.maker = some c ∧
        ((∃ w', s.calls.lookup c = some (.spawning w')) ∨
          ∃ w', s.tasks.lookup c = some (.sleeping w'))) ∧
    (∀ es keyValues es' (s s' : Coalescer K V T), Runs (Coalescer.step M) { window := w } es s →
      Runs (Coalescer.step M) s (.queue keyValues :: es') s' →
      ∀ k e, (k, e) ∈ keyValues → Kept s.broadcasts.length k e s') ∧
    ∀ run : InfiniteRun (Coalescer.step M) ({ window := w } : Coalescer K V T),
      (run.Fair fun s ev => ev ∈ s.owes) → ∀ n keyValues, run.event n = some (.queue keyValues) →
      ∀ k e, (k, e) ∈ keyValues → ∃ m, n < m ∧
        ∃ batch ∈ (run.state m).broadcasts.drop (run.state n).broadcasts.length,
          ∃ e', (k, e') ∈ batch ∧ e.stamp ≤ e'.stamp := by
  refine ⟨fun es s h => (sound_of_runs h).scheduled, ?_, ?_⟩
  · intro es keyValues es' s s' h h' k e hmem
    exact kept_of_runs (sound_of_runs h) h' hmem
  · intro run hfair n keyValues hev k e hmem
    obtain ⟨s₁, hstep, hlog, hcall⟩ := step_queue (M := M) (run.state n) hmem
    have hnext : run.state (n + 1) = s₁ :=
      Option.some.inj ((run.taken n _ hev).symm.trans hstep)
    subst hnext
    obtain ⟨m, hm, hsent⟩ := reading_leadsTo hfair (run.state n).broadcasts.length _ _ k e (n + 1)
      ⟨(congrArg List.length hlog).ge, hcall⟩
    exact ⟨m, hm, hsent⟩

/-- Two writes of one key share a window, which is closed before their task wakes. -/
def sharedWindow : List (CoalesceEvent Nat Nat Nat) :=
  [.queue [(1, .present 10 7)], .call 0, .call 0, .queue [(1, .present 20 8)], .call 1, .call 1,
    .call 0, .setWindow 0, .flush 0, .flush 0]

theorem queued_entries_broadcast_shared :
    (∃ s : Coalescer Nat Nat Nat, s.pending.entries.isEmpty = false ∧ ∃ c, s.maker = some c ∧
      ((∃ w, s.calls.lookup c = some (.spawning w)) ∨
        ∃ w, s.tasks.lookup c = some (.sleeping w))) ∧
    (∃ s : Coalescer Nat Nat Nat, Kept 0 1 (.present 10 7) s) ∧
    ∃ run : InfiniteRun (Coalescer.step (Merge.keepLocal Nat Nat))
      ({ window := 5 } : Coalescer Nat Nat Nat),
      (run.Fair fun s ev => ev ∈ s.owes) ∧ ∃ m, 0 < m ∧
        ∃ batch ∈ (run.state m).broadcasts.drop (run.state 0).broadcasts.length,
          ∃ e', (1, e') ∈ batch ∧ (10 : Nat) ≤ e'.stamp := by
  have hall := queued_entries_broadcast (K := Nat) (Merge.keepLocal Nat Nat) 5
  have hrun : (runAll (Coalescer.step (Merge.keepLocal Nat Nat))
      ({ window := 5 } : Coalescer Nat Nat Nat) sharedWindow).isSome = true := by decide +kernel
  have hfair : (InfiniteRun.ofList _ _ _ hrun).Fair fun s ev => ev ∈ s.owes :=
    InfiniteRun.fair_ofList hrun (by decide +kernel)
  refine ⟨?_, ?_, _, hfair, ?_⟩
  · have hfilled : (runAll (Coalescer.step (Merge.keepLocal Nat Nat))
        ({ window := 5 } : Coalescer Nat Nat Nat) (sharedWindow.take 3)).any
        (fun s => !s.pending.entries.isEmpty) = true := by decide +kernel
    obtain ⟨s, hs, hne⟩ := (Option.any_eq_true ..).1 hfilled
    have hne : s.pending.entries.isEmpty = false := by simpa using hne
    exact ⟨s, hne, hall.1 _ s (runs_of_runAll hs) hne⟩
  · obtain ⟨s, hs⟩ := Option.isSome_iff_exists.1 hrun
    exact ⟨s, hall.2.1 [] _ _ _ s .start (runs_of_runAll hs) 1 _ List.mem_cons_self⟩
  · exact hall.2.2 _ hfair 0 _ rfl 1 (.present 10 7) List.mem_cons_self

end Coalescer
end Reconcile
