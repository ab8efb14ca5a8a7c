import Mathlib.Data.List.Rotate
import Reconcile.Lib.Transition

namespace Reconcile
open Lib
set_option autoImplicit true

/-- Durations and instants are in one unit. -/
structure EndpointDiscoveryConfig where
  maxCandidates : Nat
  maxProbes : Nat
  timeout : Nat
  probeInterval : Nat
  maxProbes_pos : 0 < maxProbes
  maxProbes_le : maxProbes ≤ maxCandidates
  timeout_pos : 0 < timeout
  probeInterval_pos : 0 < probeInterval

inductive EndpointConfigError where
  | invalidLimits
  deriving DecidableEq, Repr

def EndpointDiscoveryConfig.new (maxCandidates maxProbes : Nat) (hprobes : 0 < maxProbes)
    (timeout probeInterval : Nat) : Except EndpointConfigError EndpointDiscoveryConfig :=
  if h : maxCandidates < maxProbes ∨ timeout = 0 ∨ probeInterval = 0 then .error .invalidLimits
  else
    .ok ⟨maxCandidates, maxProbes, timeout, probeInterval, hprobes, Nat.not_lt.1 (not_or.1 h).1,
      Nat.pos_of_ne_zero (not_or.1 (not_or.1 h).2).1, Nat.pos_of_ne_zero (not_or.1 (not_or.1 h).2).2⟩

def EndpointDiscoveryConfig.default : EndpointDiscoveryConfig :=
  ⟨256, 16, 5000, 1000, by decide, by decide, by decide, by decide⟩

inductive EndpointLookup (A Err : Type) where
  | timedOut
  | failed (err : Err)
  | resolved (raw : List A)

inductive RefreshError (Err : Type) where
  | timedOut
  | other (err : Err)
  | exceededCap
  deriving DecidableEq

structure EndpointDiscoveryState (A : Type) where
  config : EndpointDiscoveryConfig
  candidates : List A := []
  cursor : Nat := 0
  lastProbe : Option Nat := none

namespace EndpointDiscoveryState

variable {A Err : Type} [DecidableEq A]

def distinct (raw : List A) : List A :=
  raw.foldl (fun candidates a => if a ∈ candidates then candidates else candidates ++ [a]) []

/-- The place of the next candidate among the new ones, or the front when it is gone. -/
def relocate (s : EndpointDiscoveryState A) (candidates : List A) : Nat :=
  (s.candidates[s.cursor]?.bind candidates.idxOf?).getD 0

def refresh (s : EndpointDiscoveryState A) :
    EndpointLookup A Err → Except (RefreshError Err) Unit × EndpointDiscoveryState A
  | .timedOut => (.error .timedOut, s)
  | .failed err => (.error (.other err), s)
  | .resolved raw =>
    if s.config.maxCandidates < raw.length then (.error .exceededCap, s)
    else (.ok (), { s with candidates := distinct raw, cursor := s.relocate (distinct raw) })

/-- The loop that fills a batch; an index outside the candidates panics. -/
def probeLoop (candidates : List A) : Nat → Nat → Option (List A × Nat)
  | 0, cursor => some ([], cursor)
  | count + 1, cursor =>
    match candidates[cursor]? with
    | none => none
    | some a =>
      (probeLoop candidates count ((cursor + 1) % candidates.length)).map fun rest =>
        (a :: rest.1, rest.2)

def rests (s : EndpointDiscoveryState A) (now : Nat) : Bool :=
  s.candidates.isEmpty || s.lastProbe.any fun last => now - last < s.config.probeInterval

def batchSize (s : EndpointDiscoveryState A) : Nat := min s.config.maxProbes s.candidates.length

def nextProbes (s : EndpointDiscoveryState A) (now : Nat) :
    Option (List A × EndpointDiscoveryState A) :=
  if s.rests now then some ([], s)
  else
    (probeLoop s.candidates s.batchSize s.cursor).map fun filled =>
      (filled.1, { s with cursor := filled.2, lastProbe := some now })

/-- The cursor names a candidate when there is one, and the candidates are distinct and within the
cap. -/
structure Sound (s : EndpointDiscoveryState A) : Prop where
  cursor_lt : s.candidates ≠ [] → s.cursor < s.candidates.length
  nodup : s.candidates.Nodup
  length_le : s.candidates.length ≤ s.config.maxCandidates

theorem distinct_spec (raw : List A) :
    (distinct raw).Nodup ∧ (distinct raw).length ≤ raw.length := by
  induction raw using List.reverseRecOn with
  | nil => exact ⟨List.nodup_nil, Nat.le_refl 0⟩
  | append_singleton raw a ih =>
    obtain ⟨hnodup, hlen⟩ := ih
    rw [distinct, List.foldl_append, ← distinct, List.foldl_cons, List.foldl_nil,
      List.length_append, List.length_singleton]
    split
    · exact ⟨hnodup, by omega⟩
    · next hnew =>
      refine ⟨hnodup.append (List.nodup_singleton a) ?_, ?_⟩
      · exact List.disjoint_singleton.2 hnew
      · rw [List.length_append, List.length_singleton]
        omega

theorem relocate_lt (s : EndpointDiscoveryState A) {candidates : List A} (h : candidates ≠ []) :
    s.relocate candidates < candidates.length := by
  rw [relocate]
  cases hnext : s.candidates[s.cursor]?.bind candidates.idxOf? with
  | none => exact List.length_pos_iff.2 h
  | some i =>
    obtain ⟨a, _, hi⟩ := Option.bind_eq_some_iff.1 hnext
    exact (List.idxOf?_eq_some_iff.1 hi).1

theorem refresh_cases (s : EndpointDiscoveryState A) (lookup : EndpointLookup A Err) :
    (∃ err, s.refresh lookup = (.error err, s)) ∨
    ∃ raw, raw.length ≤ s.config.maxCandidates ∧ s.refresh lookup =
      (.ok (), { s with candidates := distinct raw, cursor := s.relocate (distinct raw) }) := by
  cases lookup with
  | timedOut => exact .inl ⟨_, rfl⟩
  | failed err => exact .inl ⟨_, rfl⟩
  | resolved raw =>
    rw [refresh]
    split
    · exact .inl ⟨_, rfl⟩
    · next hcap => exact .inr ⟨raw, Nat.not_lt.1 hcap, rfl⟩

omit [DecidableEq A] in
theorem rotate_eq_cons {l : List A} (h : l[i]? = some a) :
    ∃ rest, l.rotate i = a :: rest ∧ l.rotate ((i + 1) % l.length) = rest ++ [a] := by
  have hi := (List.getElem?_eq_some_iff.1 h).1
  have hhead : (l.rotate i).head? = some a := by rw [List.head?_rotate hi, h]
  obtain ⟨rest, hrest⟩ := List.head?_eq_some_iff.1 hhead
  refine ⟨rest, hrest, ?_⟩
  rw [List.rotate_mod, ← List.rotate_rotate, hrest, List.rotate_cons_succ, List.rotate_zero]

omit [DecidableEq A] in
/-- The loop takes the candidates from the cursor on, around the end. -/
theorem probeLoop_eq {candidates : List A} {count cursor : Nat}
    (hcursor : cursor < candidates.length)
    (hcount : count ≤ candidates.length) :
    probeLoop candidates count cursor =
      some ((candidates.rotate cursor).take count, (cursor + count) % candidates.length) := by
  induction count generalizing cursor with
  | zero => rw [probeLoop, List.take_zero, Nat.add_zero, Nat.mod_eq_of_lt hcursor]
  | succ count ih =>
    have hget : candidates[cursor]? = some candidates[cursor] := List.getElem?_eq_getElem hcursor
    obtain ⟨rest, hrest, hrest'⟩ := rotate_eq_cons hget
    have hlen : rest.length + 1 = candidates.length := by
      rw [← List.length_rotate candidates cursor, hrest, List.length_cons]
    have hmod := Nat.mod_lt (cursor + 1) (Nat.zero_lt_of_lt hcursor)
    rw [probeLoop, hget]
    simp only
    rw [ih hmod (Nat.le_of_succ_le hcount), hrest, hrest', List.take_succ_cons,
      List.take_append_of_le_length (by omega), Option.map_some, Nat.mod_add_mod, Nat.add_assoc,
      Nat.add_comm 1]

omit [DecidableEq A] in
theorem batchSize_le (s : EndpointDiscoveryState A) : s.batchSize ≤ s.candidates.length :=
  Nat.min_le_right ..

omit [DecidableEq A] in
theorem batchSize_pos {s : EndpointDiscoveryState A} (h : s.candidates ≠ []) : 0 < s.batchSize :=
  Nat.lt_min.2 ⟨s.config.maxProbes_pos, List.length_pos_iff.2 h⟩

omit [DecidableEq A] in
theorem nextProbes_eq {s : EndpointDiscoveryState A} (h : s.Sound) (hrests : s.rests now = false) :
    s.candidates ≠ [] ∧ s.nextProbes now = some ((s.candidates.rotate s.cursor).take s.batchSize,
      { s with
        cursor := (s.cursor + s.batchSize) % s.candidates.length
        lastProbe := some now }) := by
  have hne : s.candidates ≠ [] := by
    rintro hnil
    rw [rests, hnil] at hrests
    cases hrests
  refine ⟨hne, ?_⟩
  rw [nextProbes, hrests, if_neg Bool.false_ne_true,
    probeLoop_eq (h.cursor_lt hne) s.batchSize_le]
  rfl

inductive EndpointEvent (A Err : Type) where
  | refresh (lookup : EndpointLookup A Err)
  | nextProbes (now : Nat)

inductive EndpointOutcome (A Err : Type) where
  | refreshed (result : Except (RefreshError Err) Unit)
  | probed (batch : List A)
  | panicked

def handle (s : EndpointDiscoveryState A) :
    EndpointEvent A Err → EndpointOutcome A Err × EndpointDiscoveryState A
  | .refresh lookup =>
    let refreshed := s.refresh lookup
    (.refreshed refreshed.1, refreshed.2)
  | .nextProbes now =>
    match s.nextProbes now with
    | none => (.panicked, s)
    | some (batch, s) => (.probed batch, s)

def renews : EndpointEvent A Err × EndpointOutcome A Err → Bool
  | (_, .refreshed (.ok ())) => true
  | _ => false

def batch? : EndpointEvent A Err × EndpointOutcome A Err → Option (Nat × List A)
  | (.nextProbes now, .probed (a :: batch)) => some (now, a :: batch)
  | _ => none

def batches (tr : List (EndpointEvent A Err × EndpointOutcome A Err)) : List (Nat × List A) :=
  tr.filterMap batch?

inductive Step (s : EndpointDiscoveryState A) :
    EndpointEvent A Err × EndpointOutcome A Err → EndpointDiscoveryState A → Prop where
  | renew (lookup : EndpointLookup A Err) (hcap : raw.length ≤ s.config.maxCandidates) :
    Step s (.refresh lookup, .refreshed (.ok ()))
      { s with candidates := distinct raw, cursor := s.relocate (distinct raw) }
  | fail (lookup : EndpointLookup A Err) (err : RefreshError Err) :
    Step s (.refresh lookup, .refreshed (.error err)) s
  | rest (now : Nat) : Step s (.nextProbes now, .probed []) s
  | probe (hne : s.candidates ≠ [])
    (hdue : ∀ last, s.lastProbe = some last → last + s.config.probeInterval ≤ now) :
    Step s (.nextProbes now, .probed ((s.candidates.rotate s.cursor).take s.batchSize))
      { s with
        cursor := (s.cursor + s.batchSize) % s.candidates.length
        lastProbe := some now }

theorem step_handle {s : EndpointDiscoveryState A} (h : s.Sound) (e : EndpointEvent A Err) :
    s.Step (e, (s.handle e).1) (s.handle e).2 := by
  cases e with
  | refresh lookup =>
    rcases s.refresh_cases lookup with ⟨err, hr⟩ | ⟨raw, hcap, hr⟩
    · rw [handle, hr]
      exact .fail lookup err
    · rw [handle, hr]
      exact .renew lookup hcap
  | nextProbes now =>
    cases hrests : s.rests now with
    | true =>
      rw [handle, nextProbes, hrests]
      exact .rest now
    | false =>
      obtain ⟨hne, heq⟩ := nextProbes_eq h hrests
      rw [handle, heq]
      refine .probe hne ?_
      intro last hlast
      -- instants that go back count as no time passed, which is less than the interval
      have hpos := s.config.probeInterval_pos
      rw [rests, Bool.or_eq_false_iff, hlast, Option.any_some, decide_eq_false_iff_not,
        Nat.not_lt] at hrests
      omega

theorem Sound.step {s s' : EndpointDiscoveryState A}
    {x : EndpointEvent A Err × EndpointOutcome A Err} (h : s.Sound) (hs : s.Step x s') :
    s'.Sound ∧ s'.config = s.config := by
  cases hs with
  | @renew raw lookup hcap =>
    obtain ⟨hnodup, hlen⟩ := distinct_spec raw
    exact ⟨⟨s.relocate_lt, hnodup, hlen.trans hcap⟩, rfl⟩
  | fail => exact ⟨h, rfl⟩
  | rest => exact ⟨h, rfl⟩
  | probe hne =>
    exact ⟨⟨fun _ => Nat.mod_lt _ (List.length_pos_iff.2 hne), h.nodup, h.length_le⟩, rfl⟩

/-- What holds of a run: the batches are distinct, small enough and far enough apart. -/
structure Regular (config : EndpointDiscoveryConfig)
    (tr : List (EndpointEvent A Err × EndpointOutcome A Err)) (s : EndpointDiscoveryState A) :
    Prop where
  sound : s.Sound
  config_eq : s.config = config
  batch : ∀ e b, (e, .probed b) ∈ tr → b.Nodup ∧ b.length ≤ config.maxProbes
  safe : ∀ e, (e, .panicked) ∉ tr
  spaced : ((batches tr).map Prod.fst).Pairwise fun t t' => t + config.probeInterval ≤ t'
  last : ∀ x ∈ batches tr, ∃ last, s.lastProbe = some last ∧ x.1 ≤ last

omit [DecidableEq A] in
theorem batches_snoc (tr : List (EndpointEvent A Err × EndpointOutcome A Err))
    (x : EndpointEvent A Err × EndpointOutcome A Err) :
    batches (tr ++ [x]) = batches tr ++ (batch? x).toList := by
  rw [batches, List.filterMap_append, ← batches]
  cases h : batch? x with
  | none => rw [List.filterMap_cons_none h]; rfl
  | some b => rw [List.filterMap_cons_some h]; rfl

omit [DecidableEq A] in
theorem batch?_probed {b : List A} (h : b ≠ []) :
    batch? ((.nextProbes now, .probed b) : EndpointEvent A Err × EndpointOutcome A Err) =
      some (now, b) := by
  cases b with
  | nil => exact absurd rfl h
  | cons a b => rfl

omit [DecidableEq A] in
theorem batch_ne_nil {s : EndpointDiscoveryState A} (h : s.candidates ≠ []) :
    (s.candidates.rotate s.cursor).take s.batchSize ≠ [] := by
  have hpos := batchSize_pos h
  have hle := s.batchSize_le
  rw [← List.length_pos_iff, List.length_take, List.length_rotate]
  omega

theorem Regular.snoc {config : EndpointDiscoveryConfig} {s s' : EndpointDiscoveryState A}
    {x : EndpointEvent A Err × EndpointOutcome A Err} (h : Regular config tr s) (hs : s.Step x s')
    (hbatch : ∀ e b, x = (e, .probed b) → b.Nodup ∧ b.length ≤ config.maxProbes)
    (hsafe : ∀ e, x ≠ (e, .panicked))
    (hspaced : ((batches (tr ++ [x])).map Prod.fst).Pairwise
      fun t t' => t + config.probeInterval ≤ t')
    (hlast : ∀ y ∈ batches (tr ++ [x]), ∃ last, s'.lastProbe = some last ∧ y.1 ≤ last) :
    Regular config (tr ++ [x]) s' := by
  obtain ⟨hsound, hconfig⟩ := h.sound.step hs
  refine ⟨hsound, hconfig.trans h.config_eq, ?_, ?_, hspaced, hlast⟩
  · intro e b hin
    rcases List.mem_append.1 hin with hin | hin
    · exact h.batch e b hin
    · exact hbatch e b (List.mem_singleton.1 hin).symm
  · intro e hin
    rcases List.mem_append.1 hin with hin | hin
    · exact h.safe e hin
    · exact hsafe e (List.mem_singleton.1 hin).symm

theorem Regular.quiet {config : EndpointDiscoveryConfig} {s s' : EndpointDiscoveryState A}
    {x : EndpointEvent A Err × EndpointOutcome A Err} (h : Regular config tr s) (hs : s.Step x s')
    (hbatch : batch? x = none) (hlast : s'.lastProbe = s.lastProbe)
    (hempty : ∀ e b, x = (e, .probed b) → b = []) (hsafe : ∀ e, x ≠ (e, .panicked)) :
    Regular config (tr ++ [x]) s' := by
  have hbatches : batches (tr ++ [x]) = batches tr := by
    rw [batches_snoc, hbatch]
    exact List.append_nil _
  refine h.snoc hs ?_ hsafe (hbatches ▸ h.spaced) ?_
  · intro e b hx
    rw [hempty e b hx]
    exact ⟨List.nodup_nil, Nat.zero_le _⟩
  · rw [hbatches, hlast]
    exact h.last

theorem Regular.step {config : EndpointDiscoveryConfig} {s s' : EndpointDiscoveryState A}
    {x : EndpointEvent A Err × EndpointOutcome A Err} (h : Regular config tr s)
    (hs : s.Step x s') : Regular config (tr ++ [x]) s' := by
  have hquiet := h.quiet hs
  have hsnoc := h.snoc hs
  cases hs with
  | renew => exact hquiet rfl rfl (by rintro _ _ ⟨⟩) (by rintro _ ⟨⟩)
  | fail => exact hquiet rfl rfl (by rintro _ _ ⟨⟩) (by rintro _ ⟨⟩)
  | rest => exact hquiet rfl rfl (by rintro _ _ ⟨⟩; rfl) (by rintro _ ⟨⟩)
  | @probe now hne hdue =>
    have hbatches := batches_snoc tr (.nextProbes now,
      .probed ((s.candidates.rotate s.cursor).take s.batchSize))
    rw [batch?_probed (batch_ne_nil hne), Option.toList_some] at hbatches
    -- the last batch bounds the instants of all before it
    have hafter : ∀ x ∈ batches tr, x.1 + config.probeInterval ≤ now := by
      intro x hx
      obtain ⟨last, hlast, hle⟩ := h.last x hx
      have hdue := hdue last hlast
      rw [h.config_eq] at hdue
      omega
    apply hsnoc
    · rintro e b ⟨⟩
      refine ⟨(List.nodup_rotate.2 h.sound.nodup).sublist (List.take_sublist ..), ?_⟩
      rw [← h.config_eq]
      exact (List.length_take_le ..).trans (Nat.min_le_left ..)
    · rintro e ⟨⟩
    · rw [hbatches, List.map_append, List.pairwise_append]
      refine ⟨h.spaced, List.pairwise_singleton .., ?_⟩
      intro t ht t' ht'
      obtain ⟨x, hx, rfl⟩ := List.mem_map.1 ht
      cases List.mem_singleton.1 ht'
      exact hafter x hx
    · intro x hx
      refine ⟨now, rfl, ?_⟩
      rw [hbatches] at hx
      rcases List.mem_append.1 hx with hx | hx
      · have hle := hafter x hx
        omega
      · cases List.mem_singleton.1 hx
        exact Nat.le_refl now

theorem regular_of_traces {config : EndpointDiscoveryConfig}
    {tr : List (EndpointEvent A Err × EndpointOutcome A Err)}
    (h : Traces handle { config := config } tr s) : Regular config tr s := by
  refine h.invariant (Regular config) ?_ fun _ _ e hr => hr.step (step_handle hr.sound e)
  refine ⟨⟨fun hne => absurd rfl hne, List.nodup_nil, Nat.zero_le _⟩, rfl, ?_, ?_, .nil, ?_⟩
  · rintro _ _ ⟨⟩
  · rintro _ ⟨⟩
  · rintro _ ⟨⟩

omit [DecidableEq A] in
theorem getElem?_rotate_mod {l : List A} (h : (l.rotate i)[k + m]? = some a) :
    (l.rotate ((i + k) % l.length))[m]? = some a := by
  have hlt := (List.getElem?_eq_some_iff.1 h).1
  rw [List.rotate_mod, ← List.rotate_rotate, List.getElem?_rotate (by omega), Nat.add_comm m k,
    Nat.mod_eq_of_lt hlt]
  exact h

/-- Since `s₀`, with the same candidates: every one of them was in a batch, or is as much nearer to
the cursor as the batches were long. -/
structure Lap (s₀ : EndpointDiscoveryState A)
    (tr : List (EndpointEvent A Err × EndpointOutcome A Err)) (s : EndpointDiscoveryState A) :
    Prop where
  candidates : s.candidates = s₀.candidates
  config : s.config = s₀.config
  near : ∀ i a, (s₀.candidates.rotate s₀.cursor)[i]? = some a →
    (∃ x ∈ batches tr, a ∈ x.2) ∨ ∃ j, i = (batches tr).length * s₀.batchSize + j ∧
      (s.candidates.rotate s.cursor)[j]? = some a

theorem Lap.step {s₀ s s' : EndpointDiscoveryState A}
    {x : EndpointEvent A Err × EndpointOutcome A Err} (h : Lap s₀ tr s) (hs : s.Step x s')
    (hx : renews x = false) : Lap s₀ (tr ++ [x]) s' := by
  have hquiet : batch? x = none → s' = s → Lap s₀ (tr ++ [x]) s' := by
    rintro hbatch rfl
    have hbatches : batches (tr ++ [x]) = batches tr := by
      rw [batches_snoc, hbatch]
      exact List.append_nil _
    exact ⟨h.candidates, h.config, hbatches ▸ h.near⟩
  cases hs with
  | renew => cases hx
  | fail => exact hquiet rfl rfl
  | rest => exact hquiet rfl rfl
  | @probe now hne _ =>
    have hsize : s.batchSize = s₀.batchSize := by
      rw [batchSize, h.candidates, h.config, batchSize]
    refine ⟨h.candidates, h.config, ?_⟩
    intro i a hi
    rw [batches_snoc, batch?_probed (batch_ne_nil hne), Option.toList_some]
    rcases h.near i a hi with ⟨x, hx, ha⟩ | ⟨j, hj, ha⟩
    · exact .inl ⟨x, List.mem_append_left _ hx, ha⟩
    rcases Nat.lt_or_ge j s.batchSize with hlt | hge
    · refine .inl ⟨_, List.mem_append_right _ List.mem_cons_self, ?_⟩
      apply List.mem_of_getElem? (i := j)
      rw [List.getElem?_take_of_lt hlt]
      exact ha
    · obtain ⟨m, rfl⟩ := Nat.exists_eq_add_of_le hge
      refine .inr ⟨m, ?_, getElem?_rotate_mod ha⟩
      rw [List.length_append, List.length_singleton, Nat.succ_mul, hj, hsize, Nat.add_assoc]

theorem lap_of_traces {s₀ : EndpointDiscoveryState A}
    {tr : List (EndpointEvent A Err × EndpointOutcome A Err)} (h : Traces handle s₀ tr s)
    (h₀ : s₀.Sound) (hrenews : ∀ x ∈ tr, renews x = false) : Lap s₀ tr s := by
  have hstart : Lap s₀ ([] : List (EndpointEvent A Err × EndpointOutcome A Err)) s₀ := by
    refine ⟨rfl, rfl, ?_⟩
    intro i a hi
    refine .inr ⟨i, ?_, hi⟩
    rw [batches, List.filterMap_nil, List.length_nil, Nat.zero_mul, Nat.zero_add]
  have hinv := h.invariant (fun tr s => s.Sound ∧ ((∀ x ∈ tr, renews x = false) → Lap s₀ tr s))
    ⟨h₀, fun _ => hstart⟩ ?_
  · exact hinv.2 hrenews
  · rintro tr s e ⟨hs, hlap⟩
    have hstep := step_handle hs e
    refine ⟨(hs.step hstep).1, ?_⟩
    intro hall
    refine (hlap fun x hx => hall x (List.mem_append_left _ hx)).step hstep ?_
    exact hall _ (List.mem_append_right _ List.mem_cons_self)

theorem Lap.cover {s₀ s : EndpointDiscoveryState A}
    {tr : List (EndpointEvent A Err × EndpointOutcome A Err)} (h : Lap s₀ tr s)
    (hlap : s₀.candidates.length ≤ (batches tr).length * s₀.batchSize) (ha : a ∈ s₀.candidates) :
    ∃ x ∈ batches tr, a ∈ x.2 := by
  obtain ⟨i, hi⟩ := List.getElem?_of_mem (List.mem_rotate.2 ha : a ∈ s₀.candidates.rotate s₀.cursor)
  have hlt := (List.getElem?_eq_some_iff.1 hi).1
  rw [List.length_rotate] at hlt
  rcases h.near i a hi with hx | ⟨j, hj, _⟩
  · exact hx
  · omega

/-- In every run the cursor names a candidate when there is one, the candidates are distinct and
within the cap, every batch has distinct endpoints within the probe budget, batches are an interval
apart, and, while the candidates stay, as many batches as a lap takes cover all of them. -/
theorem probe_rotation {config : EndpointDiscoveryConfig}
    {tr : List (EndpointEvent A Err × EndpointOutcome A Err)}
    (h : Traces handle { config := config } tr s) :
    (s.candidates ≠ [] → s.cursor < s.candidates.length) ∧ s.candidates.Nodup ∧
    s.candidates.length ≤ config.maxCandidates ∧ (∀ e, (e, .panicked) ∉ tr) ∧
    (∀ e batch, (e, .probed batch) ∈ tr → batch.Nodup ∧ batch.length ≤ config.maxProbes) ∧
    (((batches tr).map Prod.fst).Pairwise fun t t' => t + config.probeInterval ≤ t') ∧
    ∀ tr₁ tr₂, tr = tr₁ ++ tr₂ → (∀ x ∈ tr₂, renews x = false) →
      ∀ count, count = min config.maxProbes s.candidates.length →
        (s.candidates.length + count - 1) / count ≤ (batches tr₂).length →
        ∀ a ∈ s.candidates, ∃ x ∈ batches tr₂, a ∈ x.2 := by
  have hr := regular_of_traces h
  refine ⟨hr.sound.cursor_lt, hr.sound.nodup, hr.sound.length_le.trans_eq (by rw [hr.config_eq]),
    hr.safe, hr.batch, hr.spaced, ?_⟩
  rintro tr₁ tr₂ rfl hrenews count hcount hbatches a ha
  obtain ⟨s₁, h₁, h₂⟩ := h.split
  have hlap := lap_of_traces h₂ (regular_of_traces h₁).sound hrenews
  have hne : s₁.candidates ≠ [] := hlap.candidates ▸ List.ne_nil_of_mem ha
  have hsize : count = s₁.batchSize := by
    rw [hcount, ← hr.config_eq, hlap.config, hlap.candidates, batchSize]
  rw [hlap.candidates] at ha hbatches
  refine hlap.cover ?_ ha
  -- a lap's worth of batches has room for every candidate
  have hpos := batchSize_pos hne
  rw [hsize] at hbatches
  have hlt := Nat.lt_mul_of_div_lt (Nat.lt_succ_of_le hbatches) hpos
  rw [Nat.succ_eq_add_one, Nat.add_mul, Nat.one_mul] at hlt
  omega

def inPairs : EndpointDiscoveryConfig := ⟨4, 2, 1, 1, by decide, by decide, by decide, by decide⟩

/-- Three endpoints are found, the first twice, and probed in two batches. -/
def inPairsTrace : List (EndpointEvent Nat Unit × EndpointOutcome Nat Unit) :=
  [(.refresh (.resolved [7, 8, 7, 9]), .refreshed (.ok ())), (.nextProbes 5, .probed [7, 8]),
    (.nextProbes 5, .probed []), (.nextProbes 6, .probed [9, 7])]

theorem probe_rotation_pairs : ∃ s : EndpointDiscoveryState Nat,
    Traces handle { config := inPairs } inPairsTrace s ∧ s.candidates = [7, 8, 9] ∧
      ∀ a ∈ s.candidates, ∃ x ∈ batches inPairsTrace.tail, a ∈ x.2 := by
  have htraces := ((((@Traces.start _ _ (EndpointOutcome Nat Unit) handle
    ({ config := inPairs } : EndpointDiscoveryState Nat)).snoc (.refresh (.resolved [7, 8, 7, 9]))).snoc
    (.nextProbes 5)).snoc (.nextProbes 5)).snoc (.nextProbes 6)
  refine ⟨_, htraces, by decide, ?_⟩
  apply (probe_rotation htraces).2.2.2.2.2.2 (inPairsTrace.take 1) inPairsTrace.tail rfl _ 2
  · decide
  · decide
  · decide

end EndpointDiscoveryState

end Reconcile
