import Reconcile.Entry
import Reconcile.Lib.Transition
import Reconcile.PendingDump

namespace Reconcile
open Lib
set_option autoImplicit true

inductive DumpChannel where
  | dated
  | valueOnly
  deriving DecidableEq

inductive DumpMessage (K V T : Type) where
  | entryUpdate (key : K) (entry : Entry T V)
  | stateUpdate (key : K) (state : State V)
  deriving DecidableEq

structure DumpTrees (K V T : Type) where
  map : List (K × Entry T V)
  projection : List (K × State V)
  deriving DecidableEq

def DumpTrees.updates (trees : DumpTrees K V T) : DumpChannel → List (K × DumpMessage K V T)
  | .dated => trees.map.map fun kv => (kv.1, .entryUpdate kv.1 kv.2)
  | .valueOnly => trees.projection.map fun kv => (kv.1, .stateUpdate kv.1 kv.2)

inductive LostTo where
  | busyPeer
  | globalBudget
  deriving DecidableEq

structure LostCall (K : Type) where
  cause : LostTo
  channel : DumpChannel
  ranges : List (EnumerationRange K)

/-- What became of a stashed batch: it is in the stash, was taken out of it, or was enumerated in
these trees and handed to the sender. -/
inductive BatchStatus (K V T : Type) where
  | waiting
  | taken
  | sent (trees : DumpTrees K V T)
  deriving DecidableEq

structure Batch (K V T : Type) extends LostCall K where
  status : BatchStatus K V T

/-- Where the call or task that has marked the peer in `bulk_in_flight` stands. -/
inductive SlotHolder (K V T : Type) where
  | claiming (channel : DumpChannel) (ranges : List (EnumerationRange K))
  | overBudget (channel : DumpChannel) (ranges : List (EnumerationRange K))
  | admitting (channel : DumpChannel) (ranges : List (EnumerationRange K))
  | taking (channel : DumpChannel) (ranges : List (EnumerationRange K))
  | enumerating (channel : DumpChannel) (ranges : List (EnumerationRange K))
  | sending (channel : DumpChannel) (ranges : List (EnumerationRange K)) (trees : DumpTrees K V T)
  | checking (channel : DumpChannel)
  | releasing

/-- One peer's slot, its two stashes, and the calls on their way to a stash. `batches` and `sent`
are the history: what was ever stashed, and what was ever given to the sender. -/
structure DumpState (K V T : Type) where
  holder : Option (SlotHolder K V T) := none
  lost : List (LostCall K) := []
  stash : DumpChannel → Option (List (EnumerationRange K)) := fun _ => none
  batches : List (Batch K V T) := []
  sent : List (DumpMessage K V T) := []

/-- The atomic steps of the dump calls and of the send task. The global budget's count, the
admission's verdict and the trees loaded are the rest of the engine's. -/
inductive DumpEvent (K V T : Type) where
  | start (channel : DumpChannel) (ranges : List (EnumerationRange K))
  | budget (claimed : Bool)
  | unmark
  | admission (granted : Bool)
  | take
  | enumerate (trees : DumpTrees K V T)
  | send
  | check
  | release
  | stash (call : Nat)

variable {K V T : Type} [LinearOrder K]

def enumerate (channel : DumpChannel) (trees : DumpTrees K V T)
    (ranges : List (EnumerationRange K)) : List (DumpMessage K V T) :=
  ranges.flatMap fun r => ((trees.updates channel).filter fun u => r.covers u.1).map (·.2)

namespace Batch

def take (channel : DumpChannel) (b : Batch K V T) : Batch K V T :=
  match b.status with
  | .waiting => if b.channel = channel then { b with status := .taken } else b
  | _ => b

def settle (trees : DumpTrees K V T) (b : Batch K V T) : Batch K V T :=
  match b.status with
  | .taken => { b with status := .sent trees }
  | _ => b

end Batch

namespace DumpState

def stashPendingDump (s : DumpState K V T) (l : LostCall K) : DumpState K V T :=
  { s with
    stash := Function.update s.stash l.channel
      (some (coalesceRanges ((s.stash l.channel).getD [] ++ l.ranges)))
    batches := s.batches ++ [⟨l, .waiting⟩] }

def removeStash (s : DumpState K V T) (channel : DumpChannel) : DumpState K V T :=
  { s with
    stash := Function.update s.stash channel none
    batches := s.batches.map (Batch.take channel) }

def sendUpdates (s : DumpState K V T) (channel : DumpChannel) (ranges : List (EnumerationRange K))
    (trees : DumpTrees K V T) : DumpState K V T :=
  { s with
    batches := s.batches.map (Batch.settle trees)
    sent := s.sent ++ enumerate channel trees ranges }

def step (s : DumpState K V T) : DumpEvent K V T → Option (DumpState K V T)
  | .start channel ranges =>
    -- Both callers pass a nonempty batch of differences only.
    if ranges.isEmpty then none
    else
      match s.holder with
      | none => some { s with holder := some (.claiming channel ranges) }
      | some _ => some { s with lost := s.lost ++ [⟨.busyPeer, channel, ranges⟩] }
  | .budget claimed =>
    match s.holder with
    | some (.claiming channel ranges) =>
      some { s with
        holder := some (if claimed then .admitting channel ranges else .overBudget channel ranges) }
    | _ => none
  | .unmark =>
    match s.holder with
    | some (.overBudget channel ranges) =>
      some { s with holder := none, lost := s.lost ++ [⟨.globalBudget, channel, ranges⟩] }
    | _ => none
  | .admission granted =>
    match s.holder with
    | some (.admitting channel ranges) =>
      some { s with holder := some (if granted then .taking channel ranges else .releasing) }
    | _ => none
  | .take =>
    match s.holder with
    | some (.taking channel ranges) =>
      some { s.removeStash channel with
        holder := some (.enumerating channel
          (coalesceRanges ((s.stash channel).getD [] ++ ranges))) }
    | _ => none
  | .enumerate trees =>
    match s.holder with
    | some (.enumerating channel ranges) =>
      if (enumerate channel trees ranges).isEmpty then
        some { s.sendUpdates channel ranges trees with holder := some .releasing }
      else some { s with holder := some (.sending channel ranges trees) }
    | _ => none
  | .send =>
    match s.holder with
    | some (.sending channel ranges trees) =>
      some { s.sendUpdates channel ranges trees with holder := some (.checking channel) }
    | _ => none
  | .check =>
    match s.holder with
    | some (.checking channel) =>
      match (s.stash channel).filter fun r => !r.isEmpty with
      | some ranges =>
        some { s.removeStash channel with holder := some (.enumerating channel ranges) }
      | none => some { s.removeStash channel with holder := some .releasing }
    | _ => none
  | .release =>
    match s.holder with
    | some .releasing => some { s with holder := none }
    | _ => none
  | .stash call =>
    match s.lost[call]? with
    | some l => some ({ s with lost := s.lost.eraseIdx call }.stashPendingDump l)
    | none => none

end DumpState

def SlotHolder.drains (channel : DumpChannel) : SlotHolder K V T → Bool
  | .claiming c _ | .admitting c _ | .taking c _ | .enumerating c _ | .sending c _ _
  | .checking c => c == channel
  | .overBudget _ _ | .releasing => false

def SlotHolder.inHand (channel : DumpChannel) :
    SlotHolder K V T → Option (List (EnumerationRange K))
  | .enumerating c ranges | .sending c ranges _ => if c = channel then some ranges else none
  | _ => none

def Batch.owed (b : Batch K V T) : Bool :=
  b.cause == .busyPeer && match b.status with
    | .waiting => true
    | _ => false

namespace DumpState

def nothingOwed (s : DumpState K V T) : Bool := s.batches.all fun b => !b.owed

/-- A call that lost to the peer's own dump stashes while the slot's holder will still drain its
channel, and a holder gives up early, or finds nothing to send, only while no such batch waits. -/
def attended (s : DumpState K V T) : DumpEvent K V T → Bool
  | .stash call =>
    match s.lost[call]? with
    | some l => l.cause == .globalBudget || s.holder.any (·.drains l.channel)
    | none => true
  | .budget claimed => claimed || s.nothingOwed
  | .admission granted => granted || s.nothingOwed
  | .enumerate trees =>
    match s.holder with
    | some (.enumerating channel ranges) =>
      !(enumerate channel trees ranges).isEmpty || s.nothingOwed
    | _ => true
  | _ => true

end DumpState

theorem mem_enumerate {channel : DumpChannel} {trees : DumpTrees K V T}
    {ranges : List (EnumerationRange K)} {m : DumpMessage K V T} :
    m ∈ enumerate channel trees ranges ↔
      ∃ k, (k, m) ∈ trees.updates channel ∧ coversKey ranges k = true := by
  simp only [enumerate, coversKey, List.mem_flatMap, List.mem_map, List.mem_filter,
    List.any_eq_true]
  constructor
  · rintro ⟨r, hr, ⟨k, m'⟩, ⟨hm, hk⟩, rfl⟩
    exact ⟨k, hm, r, hr, hk⟩
  · rintro ⟨k, hm, r, hr, hk⟩
    exact ⟨r, hr, (k, m), ⟨hm, hk⟩, rfl⟩

def RangesWithin (ranges ranges' : List (EnumerationRange K)) : Prop :=
  ∀ k, coversKey ranges k = true → coversKey ranges' k = true

theorem RangesWithin.enumerate_subset {ranges ranges' : List (EnumerationRange K)}
    (h : RangesWithin ranges ranges') (channel : DumpChannel) (trees : DumpTrees K V T) :
    enumerate channel trees ranges ⊆ enumerate channel trees ranges' := by
  intro m hm
  obtain ⟨k, hu, hk⟩ := mem_enumerate.1 hm
  exact mem_enumerate.2 ⟨k, hu, h k hk⟩

theorem coversKey_append (ranges ranges' : List (EnumerationRange K)) (k : K) :
    coversKey (ranges ++ ranges') k = (coversKey ranges k || coversKey ranges' k) :=
  List.any_append

theorem rangesWithin_coalesce_left (ranges ranges' : List (EnumerationRange K)) :
    RangesWithin ranges (coalesceRanges (ranges ++ ranges')) := by
  intro k hk
  rw [coversKey_coalesceRanges, coversKey_append, hk, Bool.true_or]

theorem rangesWithin_coalesce_right (ranges ranges' : List (EnumerationRange K)) :
    RangesWithin ranges' (coalesceRanges (ranges ++ ranges')) := by
  intro k hk
  rw [coversKey_coalesceRanges, coversKey_append, hk, Bool.or_true]

theorem RangesWithin.trans {a b c : List (EnumerationRange K)} (h : RangesWithin a b)
    (h' : RangesWithin b c) : RangesWithin a c :=
  fun k hk => h' k (h k hk)

def Batch.Placed (s : DumpState K V T) (b : Batch K V T) : Prop :=
  match b.status with
  | .waiting =>
    (∃ ranges, s.stash b.channel = some ranges ∧ RangesWithin b.ranges ranges) ∧
      (b.cause = .busyPeer → s.holder.any (·.drains b.channel) = true)
  | .taken => ∃ ranges, s.holder.bind (·.inHand b.channel) = some ranges ∧
      RangesWithin b.ranges ranges
  | .sent trees => enumerate b.channel trees b.ranges ⊆ s.sent

/-- Every stashed batch is where its status says, and nothing empty is asked for or stashed. -/
structure Tended (s : DumpState K V T) : Prop where
  placed : ∀ b ∈ s.batches, b.Placed s
  lost : ∀ l ∈ s.lost, l.ranges ≠ []
  claiming : ∀ channel ranges, (s.holder = some (.claiming channel ranges) ∨
    s.holder = some (.overBudget channel ranges)) → ranges ≠ []
  stash : ∀ channel ranges, s.stash channel = some ranges →
    ranges ≠ [] ∧ ∃ b ∈ s.batches, b.channel = channel ∧ b.status = .waiting

omit [LinearOrder K] in
theorem DumpState.not_owed {s : DumpState K V T} (h : s.nothingOwed = true) {b : Batch K V T}
    (hb : b ∈ s.batches) (hw : b.status = .waiting) : b.cause ≠ .busyPeer := by
  intro hc
  have hn := List.all_eq_true.1 h b hb
  simp [Batch.owed, hc, hw] at hn

namespace Batch

omit [LinearOrder K] in
@[simp] theorem take_toLostCall (channel : DumpChannel) (b : Batch K V T) :
    (b.take channel).toLostCall = b.toLostCall := by
  unfold take
  split
  · split <;> rfl
  · rfl

omit [LinearOrder K] in
@[simp] theorem settle_toLostCall (trees : DumpTrees K V T) (b : Batch K V T) :
    (b.settle trees).toLostCall = b.toLostCall := by
  unfold settle
  split <;> rfl

namespace Placed

variable {s s' : DumpState K V T} {b : Batch K V T}

theorem move (h : b.Placed s) (hstash : s'.stash = s.stash) (hsent : s'.sent = s.sent)
    (hw : b.status = .waiting → b.cause = .busyPeer →
      s.holder.any (·.drains b.channel) = true → s'.holder.any (·.drains b.channel) = true)
    (ht : ∀ ranges, s.holder.bind (·.inHand b.channel) = some ranges →
      s'.holder.bind (·.inHand b.channel) = some ranges) : b.Placed s' := by
  unfold Placed at h ⊢
  split at h
  · next hb =>
    obtain ⟨hr, hh⟩ := h
    rw [hstash]
    exact ⟨hr, fun hc => hw hb hc (hh hc)⟩
  · obtain ⟨ranges, hr, hh⟩ := h
    exact ⟨ranges, ht ranges hr, hh⟩
  · rwa [hsent]

/-- A holder with nothing in hand empties the stash it drains, into what it has in hand next. -/
theorem removeStash {channel : DumpChannel} {holder : SlotHolder K V T} (h : b.Placed s)
    (hd : ∀ c, s.holder.any (·.drains c) = true → c = channel)
    (hn : ∀ c, s.holder.bind (·.inHand c) = none)
    (hr : ∀ old, s.stash channel = some old →
      ∃ ranges, holder.inHand channel = some ranges ∧ RangesWithin old ranges) :
    (b.take channel).Placed { s.removeStash channel with holder := some holder } := by
  unfold Placed at h
  split at h
  · next hb =>
    obtain ⟨⟨old, ho, hold⟩, hh⟩ := h
    by_cases hc : b.channel = channel
    · subst hc
      obtain ⟨ranges, hi, hw⟩ := hr old ho
      simp only [take, hb, ↓reduceIte]
      exact ⟨ranges, hi, hold.trans hw⟩
    · simp only [take, hb, if_neg hc, Placed, DumpState.removeStash,
        Function.update_of_ne hc]
      exact ⟨⟨old, ho, hold⟩, fun hcause => absurd (hd _ (hh hcause)) hc⟩
  · obtain ⟨ranges, hi, -⟩ := h
    rw [hn] at hi
    cases hi
  · next trees hb =>
    simp only [take, hb, Placed]
    exact h

theorem sendUpdates {channel : DumpChannel} {ranges : List (EnumerationRange K)}
    {trees : DumpTrees K V T} {holder : SlotHolder K V T} (h : b.Placed s)
    (hi : ∀ c ranges', s.holder.bind (·.inHand c) = some ranges' → c = channel ∧ ranges' = ranges)
    (hw : b.status = .waiting → b.cause = .busyPeer →
      s.holder.any (·.drains b.channel) = true → holder.drains b.channel = true) :
    (b.settle trees).Placed
      { s.sendUpdates channel ranges trees with holder := some holder } := by
  unfold Placed at h
  split at h
  · next hb =>
    obtain ⟨hr, hh⟩ := h
    simp only [settle, hb, Placed]
    exact ⟨hr, fun hc => hw hb hc (hh hc)⟩
  · next hb =>
    obtain ⟨ranges', hi', hr⟩ := h
    obtain ⟨hc, rfl⟩ := hi _ _ hi'
    simp only [settle, hb, Placed, DumpState.sendUpdates]
    rw [hc]
    exact List.subset_append_of_subset_right _ (hr.enumerate_subset channel trees)
  · next trees' hb =>
    simp only [settle, hb, Placed, DumpState.sendUpdates]
    exact List.subset_append_of_subset_left _ h

end Placed

end Batch

namespace Tended

variable {s s' : DumpState K V T}

theorem move (h : Tended s) {holder : Option (SlotHolder K V T)} {lost : List (LostCall K)}
    (hl : ∀ l ∈ lost, l.ranges ≠ [])
    (hc : ∀ channel ranges, (holder = some (.claiming channel ranges) ∨
      holder = some (.overBudget channel ranges)) → ranges ≠ [])
    (hw : s.nothingOwed = true ∨ ∀ c, s.holder.any (·.drains c) = true →
      holder.any (·.drains c) = true)
    (ht : ∀ c ranges, s.holder.bind (·.inHand c) = some ranges →
      holder.bind (·.inHand c) = some ranges) :
    Tended { s with holder := holder, lost := lost } where
  placed b hb := by
    apply Batch.Placed.move (h.placed b hb)
    · rfl
    · rfl
    · intro hb' hcause hd
      rcases hw with hw | hw
      · exact absurd hcause (DumpState.not_owed hw hb hb')
      · exact hw _ hd
    · exact ht b.channel
  lost := hl
  claiming := hc
  stash := h.stash

theorem removeStash (h : Tended s) {channel : DumpChannel} {holder : SlotHolder K V T}
    (hc : ∀ c ranges, holder ≠ .claiming c ranges ∧ holder ≠ .overBudget c ranges)
    (hd : ∀ c, s.holder.any (·.drains c) = true → c = channel)
    (hn : ∀ c, s.holder.bind (·.inHand c) = none)
    (hr : ∀ old, s.stash channel = some old →
      ∃ ranges, holder.inHand channel = some ranges ∧ RangesWithin old ranges) :
    Tended { s.removeStash channel with holder := some holder } where
  placed b hb := by
    obtain ⟨b', hb', rfl⟩ := List.mem_map.1 hb
    exact (h.placed b' hb').removeStash hd hn hr
  lost := h.lost
  claiming c ranges he := by
    rcases he with he | he
    · exact absurd (Option.some.inj he) (hc c ranges).1
    · exact absurd (Option.some.inj he) (hc c ranges).2
  stash c ranges he := by
    by_cases hcc : c = channel
    · simp only [DumpState.removeStash, hcc, Function.update_self] at he
      cases he
    · simp only [DumpState.removeStash, Function.update_of_ne hcc] at he
      obtain ⟨hne, b, hb, hbc, hw⟩ := h.stash c ranges he
      -- A batch of the other channel is untouched.
      refine ⟨hne, b.take channel, List.mem_map_of_mem hb, ?_, ?_⟩
      · rw [Batch.take_toLostCall, hbc]
      · simp only [Batch.take, hw, hbc, if_neg hcc]

theorem sendUpdates (h : Tended s) {channel : DumpChannel} {ranges : List (EnumerationRange K)}
    {trees : DumpTrees K V T} {holder : SlotHolder K V T}
    (hc : ∀ c ranges, holder ≠ .claiming c ranges ∧ holder ≠ .overBudget c ranges)
    (hi : ∀ c ranges', s.holder.bind (·.inHand c) = some ranges' → c = channel ∧ ranges' = ranges)
    (hw : s.nothingOwed = true ∨ ∀ c, s.holder.any (·.drains c) = true →
      holder.drains c = true) :
    Tended { s.sendUpdates channel ranges trees with holder := some holder } where
  placed b hb := by
    obtain ⟨b', hb', rfl⟩ := List.mem_map.1 hb
    apply (h.placed b' hb').sendUpdates hi
    intro hs hcause hd
    rcases hw with hw | hw
    · exact absurd hcause (DumpState.not_owed hw hb' hs)
    · exact hw _ hd
  lost := h.lost
  claiming c ranges he := by
    rcases he with he | he
    · exact absurd (Option.some.inj he) (hc c ranges).1
    · exact absurd (Option.some.inj he) (hc c ranges).2
  stash c ranges he := by
    obtain ⟨hne, b, hb, hbc, hb'⟩ := h.stash c ranges he
    refine ⟨hne, b.settle trees, List.mem_map_of_mem hb, ?_, ?_⟩
    · rw [Batch.settle_toLostCall, hbc]
    · simp only [Batch.settle, hb']

theorem stashPendingDump (h : Tended s) {l : LostCall K} (hl : l.ranges ≠ [])
    (hd : l.cause = .busyPeer → s.holder.any (·.drains l.channel) = true) :
    Tended (s.stashPendingDump l) where
  placed b hb := by
    rcases List.mem_append.1 hb with hb | hb
    · have hp := h.placed b hb
      unfold Batch.Placed at hp ⊢
      split at hp
      · obtain ⟨⟨old, ho, hw⟩, hh⟩ := hp
        refine ⟨?_, hh⟩
        by_cases hc : b.channel = l.channel
        · rw [hc] at ho ⊢
          refine ⟨_, Function.update_self .., ?_⟩
          rw [ho]
          exact hw.trans (rangesWithin_coalesce_left old l.ranges)
        · exact ⟨old, (Function.update_of_ne hc ..).trans ho, hw⟩
      · exact hp
      · exact hp
    · cases List.mem_singleton.1 hb
      exact ⟨⟨_, Function.update_self .., rangesWithin_coalesce_right _ l.ranges⟩, hd⟩
  lost := h.lost
  claiming := h.claiming
  stash c ranges he := by
    by_cases hc : c = l.channel
    · subst hc
      cases (Function.update_self ..).symm.trans he
      refine ⟨coalesceRanges_ne_nil fun hn => hl (List.append_eq_nil_iff.1 hn).2, ?_⟩
      exact ⟨_, List.mem_append_right _ (List.mem_singleton_self _), rfl, rfl⟩
    · obtain ⟨hne, b, hb, hb'⟩ := h.stash c ranges ((Function.update_of_ne hc ..).symm.trans he)
      exact ⟨hne, b, List.mem_append_left _ hb, hb'⟩

/-- No attended step loses a batch. -/
theorem step {e : DumpEvent K V T} (h : Tended s) (hs : s.step e = some s')
    (ha : s.attended e = true) : Tended s' := by
  cases e with
  | start channel ranges =>
    simp only [DumpState.step] at hs
    split at hs
    · cases hs
    · next hr =>
      have hr : ranges ≠ [] := by simpa using hr
      split at hs <;> next hh =>
        cases hs
        apply h.move <;> grind [SlotHolder.drains, SlotHolder.inHand, h.lost, h.claiming]
  | budget claimed =>
    simp only [DumpState.step] at hs
    split at hs
    · next channel ranges hh =>
      cases hs
      simp only [DumpState.attended, Bool.or_eq_true] at ha
      apply h.move <;> grind [SlotHolder.drains, SlotHolder.inHand, h.lost, h.claiming]
    · cases hs
  | unmark =>
    simp only [DumpState.step] at hs
    split at hs
    · next channel ranges hh =>
      cases hs
      have hr := h.claiming channel ranges (.inr hh)
      apply h.move <;> grind [SlotHolder.drains, SlotHolder.inHand, h.lost]
    · cases hs
  | admission granted =>
    simp only [DumpState.step] at hs
    split at hs
    · next channel ranges hh =>
      cases hs
      simp only [DumpState.attended, Bool.or_eq_true] at ha
      apply h.move <;> grind [SlotHolder.drains, SlotHolder.inHand, h.lost]
    · cases hs
  | take =>
    simp only [DumpState.step] at hs
    split at hs
    · next channel ranges hh =>
      cases hs
      apply h.removeStash
      · simp
      · intro c hd
        rw [hh] at hd
        exact (beq_iff_eq.1 hd).symm
      · simp [hh, SlotHolder.inHand]
      · intro old ho
        refine ⟨_, if_pos rfl, ?_⟩
        rw [ho]
        exact rangesWithin_coalesce_left old ranges
    · cases hs
  | enumerate trees =>
    simp only [DumpState.step] at hs
    split at hs
    · next channel ranges hh =>
      simp only [DumpState.attended, hh, Bool.or_eq_true, Bool.not_eq_true'] at ha
      split at hs
      · cases hs
        apply h.sendUpdates <;> grind [SlotHolder.drains, SlotHolder.inHand]
      · cases hs
        apply h.move <;> grind [SlotHolder.drains, SlotHolder.inHand, h.lost]
    · cases hs
  | send =>
    simp only [DumpState.step] at hs
    split at hs
    · next channel ranges trees hh =>
      cases hs
      apply h.sendUpdates <;> grind [SlotHolder.drains, SlotHolder.inHand]
    · cases hs
  | check =>
    simp only [DumpState.step] at hs
    split at hs
    · next channel hh =>
      have hd : ∀ c, s.holder.any (·.drains c) = true → c = channel := by
        intro c hd
        rw [hh] at hd
        exact (beq_iff_eq.1 hd).symm
      have hn : ∀ c, s.holder.bind (·.inHand c) = none := by simp [hh, SlotHolder.inHand]
      split at hs <;> next hf =>
        cases hs
        apply h.removeStash _ hd hn <;> grind [SlotHolder.inHand, h.stash, RangesWithin]
    · cases hs
  | release =>
    simp only [DumpState.step] at hs
    split at hs
    · next hh =>
      cases hs
      apply h.move <;> grind [SlotHolder.drains, SlotHolder.inHand, h.lost]
    · cases hs
  | stash call =>
    simp only [DumpState.step] at hs
    split at hs
    · next l hl =>
      cases hs
      have hm : Tended { s with lost := s.lost.eraseIdx call } :=
        h.move (fun l' hl' => h.lost l' (List.mem_of_mem_eraseIdx hl')) h.claiming
          (.inr fun _ hd => hd) fun _ _ ht => ht
      apply hm.stashPendingDump (h.lost l (List.mem_of_getElem? hl))
      intro hc
      simpa [DumpState.attended, hl, hc] using ha
    · cases hs

end Tended

theorem tended_start : Tended ({} : DumpState K V T) where
  placed _ hb := absurd hb List.not_mem_nil
  lost _ hl := absurd hl List.not_mem_nil
  claiming _ _ h := by rcases h with h | h <;> cases h
  stash _ _ h := by cases h

/-- On a run of attended steps a free slot means that every batch stashed because the slot was busy
has been enumerated on its channel and given to the sender, and that only batches the global budget
turned away still wait in a stash. -/
theorem pending_dumps_drained {es : List (DumpEvent K V T)} {s : DumpState K V T}
    (hr : Runs DumpState.step {} es s)
    (ha : EachStep DumpState.step (fun s e _ => s.attended e = true) {} es)
    (hf : s.holder = none) :
    (∀ b ∈ s.batches, b.cause = .busyPeer → ∃ trees, b.status = .sent trees ∧
      enumerate b.channel trees b.ranges ⊆ s.sent) ∧
    ∀ channel ranges, s.stash channel = some ranges →
      ∃ b ∈ s.batches, b.channel = channel ∧ b.status = .waiting ∧ b.cause = .globalBudget := by
  have ht : Tended s := hr.invariant_of (fun _ s => Tended s) tended_start
    (fun _ _ _ _ h hs ha => h.step hs ha) ha
  have hw : ∀ b ∈ s.batches, b.status = .waiting → b.cause ≠ .busyPeer := by
    intro b hb hs hc
    have hp := ht.placed b hb
    simp only [Batch.Placed, hs, hf] at hp
    cases hp.2 hc
  constructor
  · intro b hb hc
    have hp := ht.placed b hb
    cases hs : b.status with
    | waiting => exact absurd hc (hw b hb hs)
    | taken =>
      simp only [Batch.Placed, hs, hf] at hp
      obtain ⟨ranges, hi, -⟩ := hp
      cases hi
    | sent trees =>
      simp only [Batch.Placed, hs] at hp
      exact ⟨trees, rfl, hp⟩
  · intro channel ranges hs
    obtain ⟨-, b, hb, hc, hst⟩ := ht.stash channel ranges hs
    refine ⟨b, hb, hc, hst, ?_⟩
    cases hcause : b.cause with
    | busyPeer => exact absurd hcause (hw b hb hst)
    | globalBudget => rfl

namespace DumpState

def onePresent : DumpTrees Nat Nat Nat := ⟨[(1, ⟨7, .present 5⟩)], [(1, .present 5)]⟩

def everything : List (EnumerationRange Nat) := [⟨none, none⟩]

/-- A second dated batch arrives while the task sends the first one; the task drains it. -/
def drainedRun : List (DumpEvent Nat Nat Nat) :=
  [.start .dated everything, .budget true, .admission true, .take, .enumerate onePresent,
    .start .dated everything, .stash 0, .send, .check, .enumerate onePresent, .send, .check,
    .release]

theorem pending_dumps_drained_second :
    ∃ s, Runs step {} drainedRun s ∧ s.holder = none ∧ s.batches.length = 1 ∧
      ∀ b ∈ s.batches, b.cause = .busyPeer → ∃ trees, b.status = .sent trees ∧
        enumerate b.channel trees b.ranges ⊆ s.sent := by
  have hr : (runAll step {} drainedRun).any
      (fun s => s.holder.isNone && s.batches.length == 1) = true := by decide +kernel
  obtain ⟨s, hs, hp⟩ := (Option.any_eq_true _ _).1 hr
  rw [Bool.and_eq_true, Option.isNone_iff_eq_none, beq_iff_eq] at hp
  have ha : checkAll step attended {} drainedRun = true := by decide +kernel
  have hruns := runs_of_runAll hs
  exact ⟨s, hruns, hp.1, hp.2,
    (pending_dumps_drained hruns (eachStep_of_checkAll ha) hp.1).1⟩

/-- A value-only batch arrives while a dated task holds the slot, which looks at the dated stash
only: the slot is released over a batch that nobody is left to drain. -/
def orphanedRun : List (DumpEvent Nat Nat Nat) :=
  [.start .dated everything, .budget true, .admission true, .take, .enumerate onePresent,
    .start .valueOnly everything, .stash 0, .send, .check, .release]

theorem value_dump_orphaned :
    ∃ s, Runs step {} orphanedRun s ∧ s.holder = none ∧ s.lost = [] ∧
      s.stash .valueOnly = some everything ∧
      ∃ b ∈ s.batches, b.cause = .busyPeer ∧ b.channel = .valueOnly ∧ b.status = .waiting := by
  have hr : (runAll step {} orphanedRun).any (fun s =>
      s.holder.isNone && s.lost.isEmpty && s.stash .valueOnly == some everything &&
        s.batches.any fun b => b.cause == .busyPeer && b.channel == .valueOnly &&
          b.status == .waiting) = true := by decide +kernel
  obtain ⟨s, hs, hp⟩ := (Option.any_eq_true _ _).1 hr
  simp only [Bool.and_eq_true, Option.isNone_iff_eq_none, List.isEmpty_iff, beq_iff_eq,
    List.any_eq_true] at hp
  obtain ⟨⟨⟨hh, hl⟩, hst⟩, b, hb, ⟨hc, hch⟩, hw⟩ := hp
  exact ⟨s, runs_of_runAll hs, hh, hl, hst, b, hb, hc, hch, hw⟩

end DumpState

end Reconcile
