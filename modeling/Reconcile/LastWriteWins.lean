import Reconcile.Engine

namespace Reconcile
open Lib
set_option autoImplicit true

variable {K V P T : Type} [DecidableEq K] [DecidableEq P] [LinearOrder T]

namespace Engine

def Event.remote : Event K V T → Bool
  | .receive _ => true
  | .merge _ => true
  | _ => false

def Event.updates : Event K V T → List (K × Entry T V)
  | .receive updates => updates
  | _ => []

/-- A run in which an empty replica receives the given updates and no others, in any batches,
and has merged every batch in the end. -/
structure Delivers (R : Rsos T V) (updates : List (K × Entry T V)) (es : List (Event K V T))
    (c : Engine K V P T) : Prop where
  run : Runs (step R) {} es c
  remote : ∀ ev ∈ es, ev.remote = true
  received : ∀ u, u ∈ es.flatMap Event.updates ↔ u ∈ updates
  merged : c.applying = []

variable {R : Rsos T V} {c c₁ c₂ : Engine K V P T} {updates : List (K × Entry T V)}
  {es es₁ es₂ : List (Event K V T)}

theorem step_remote (h : c.step R ev = some c') (hr : ev.remote = true) :
    c.inOrder ev = true ∧ c'.history = ev.updates ++ c.history := by
  cases ev with
  | receive updates =>
    cases h
    exact ⟨rfl, rfl⟩
  | merge i =>
    obtain ⟨toApply, _, rfl⟩ := step_merge h
    exact ⟨rfl, rfl⟩
  | call call => cases hr
  | mint i now => cases hr
  | store i => cases hr

theorem inv_of_remote (h : Runs (step R) {} es c) (hr : ∀ ev ∈ es, ev.remote = true) :
    c.Inv ∧ ∀ u, u ∈ c.history ↔ u ∈ es.flatMap Event.updates := by
  induction h with
  | start => exact ⟨inv_empty, fun u => Iff.rfl⟩
  | snoc h hs ih =>
    obtain ⟨hi, hh⟩ := ih fun ev hev => hr ev (List.mem_append_left _ hev)
    obtain ⟨ho, hu⟩ := step_remote hs (hr _ (List.mem_append_right _ List.mem_cons_self))
    refine ⟨hi.step hs ho, ?_⟩
    intro u
    rw [hu, List.mem_append, hh, List.flatMap_append, List.mem_append, List.flatMap_singleton,
      or_comm]

theorem Delivers.lookup_iff (h : Delivers R updates es c)
    (hu : ∀ k e e', (k, e) ∈ updates → (k, e') ∈ updates → e.stamp = e'.stamp → e = e')
    (k : K) (e : Entry T V) :
    c.replica.map.lookup k = some e ↔
      HashMap.Newest Entry.stamp (fun k e => (k, e) ∈ updates) k e := by
  obtain ⟨hi, hh⟩ := inv_of_remote h.run h.remote
  have hm : ∀ k e, (k, e) ∈ c.history ↔ (k, e) ∈ updates :=
    fun k e => (hh (k, e)).trans (h.received (k, e))
  apply HashMap.newest_of_covers
  · intro k e he
    exact (hm k e).1 (hi.sound k e he)
  · intro k e he
    rcases hi.covered k e ((hm k e).2 he) with hc | ⟨b, hb, _⟩
    · exact hc
    · rw [h.merged] at hb
      cases hb
  · exact hu

/-- Two replicas that receive the same updates, in any order, duplication, batching and
interleaving of the two phases, end with the same map, projection and tombstone index. -/
theorem applyDatedUpdates_converge
    (hu : ∀ k e e', (k, e) ∈ updates → (k, e') ∈ updates → e.stamp = e'.stamp → e = e')
    (h₁ : Delivers R updates es₁ c₁) (h₂ : Delivers R updates es₂ c₂) :
    (∀ k e, c₁.replica.map.lookup k = some e ↔
      HashMap.Newest Entry.stamp (fun k e => (k, e) ∈ updates) k e) ∧
    (∀ k, c₁.replica.map.lookup k = c₂.replica.map.lookup k) ∧
    (∀ k, c₁.replica.projection.lookup k = c₂.replica.projection.lookup k) ∧
    ∀ k, k ∈ c₁.replica.liveTombstones ↔ k ∈ c₂.replica.liveTombstones := by
  have hm : ∀ k, c₁.replica.map.lookup k = c₂.replica.map.lookup k := by
    intro k
    apply Option.ext
    intro e
    rw [h₁.lookup_iff hu k e, h₂.lookup_iff hu k e]
  have hi₁ := (inv_of_remote h₁.run h₁.remote).1.mirrored
  have hi₂ := (inv_of_remote h₂.run h₂.remote).1.mirrored
  refine ⟨h₁.lookup_iff hu, hm, ?_, ?_⟩
  · intro k
    rw [hi₁.projection, hi₂.projection, hm]
  · intro k
    rw [hi₁.tombstones, hi₂.tombstones, hm]

def numbered : Rsos Nat Nat where
  toMerge := Merge.keepLocal Nat Nat
  digest s := match s with
    | .present v => v + 1
    | .tombstone => 0
  entryDigest e := e.stamp

def versions : List (Nat × Entry Nat Nat) :=
  [(1, .present 1 10), (1, .tombstone 2), (2, .present 1 5)]

def oneBatch : List (Event Nat Nat Nat) := [.receive versions, .merge 0]

/-- The tombstone is filtered first, and merged after a later batch was applied in full. -/
def overtaken : List (Event Nat Nat Nat) :=
  [.receive [(1, .tombstone 2)], .receive [(2, .present 1 5), (1, .present 1 10)], .merge 1,
    .receive [(1, .present 1 10)], .merge 0]

theorem delivers_of_run {updates : List (Nat × Entry Nat Nat)} {es : List (Event Nat Nat Nat)}
    (hr : (runAll (step numbered) ({} : Engine Nat Nat Nat Nat) es).map (fun c => c.applying) =
      some [])
    (hm : ∀ ev ∈ es, ev.remote = true)
    (hu : es.flatMap Event.updates ⊆ updates ∧ updates ⊆ es.flatMap Event.updates) :
    ∃ c : Engine Nat Nat Nat Nat, Delivers numbered updates es c := by
  obtain ⟨c, hc, ha⟩ := Option.map_eq_some_iff.1 hr
  exact ⟨c, runs_of_runAll hc, hm, fun u => ⟨fun h => hu.1 h, fun h => hu.2 h⟩, ha⟩

theorem applyDatedUpdates_converge_overtaken :
    ∃ c₁ c₂ : Engine Nat Nat Nat Nat, Delivers numbered versions oneBatch c₁ ∧
      Delivers numbered versions overtaken c₂ ∧
      (∀ k, c₁.replica.map.lookup k = c₂.replica.map.lookup k) ∧
      ∀ k, k ∈ c₁.replica.liveTombstones ↔ k ∈ c₂.replica.liveTombstones := by
  have hu : ∀ a ∈ versions, ∀ b ∈ versions, a.1 = b.1 → a.2.stamp = b.2.stamp → a.2 = b.2 := by
    decide
  have h₁ : ∃ c : Engine Nat Nat Nat Nat, Delivers numbered versions oneBatch c :=
    delivers_of_run (by decide) (by decide) (by decide)
  have h₂ : ∃ c : Engine Nat Nat Nat Nat, Delivers numbered versions overtaken c :=
    delivers_of_run (by decide) (by decide) (by decide)
  obtain ⟨c₁, h₁⟩ := h₁
  obtain ⟨c₂, h₂⟩ := h₂
  have h := applyDatedUpdates_converge (fun k e e' he he' => hu (k, e) he (k, e') he' rfl) h₁ h₂
  exact ⟨c₁, c₂, h₁, h₂, h.2.1, h.2.2.2⟩

def quiescent (c : Engine K V P T) : Bool := c.applying.isEmpty && c.writing.isEmpty

/-- Each key written or received holds an entry of the greatest stamp. -/
def Settled (c : Engine K V P T) : Prop :=
  ∀ k e, (k, e) ∈ c.history → ∃ e', c.replica.map.lookup k = some e' ∧
    HashMap.Newest Entry.stamp (fun k e => (k, e) ∈ c.history) k e'

omit [DecidableEq P] in
theorem Inv.settled (h : c.Inv) (hq : c.quiescent = true) : c.Settled := by
  have ha : c.applying = [] := List.isEmpty_iff.1 (Bool.and_eq_true_iff.1 hq).1
  have hc : ∀ k e, (k, e) ∈ c.history → HashMap.Covers Entry.stamp c.replica.map k e := by
    intro k e he
    rcases h.covered k e he with hc | ⟨b, hb, _⟩
    · exact hc
    · rw [ha] at hb
      cases hb
  intro k e he
  obtain ⟨e', he', _⟩ := hc k e he
  refine ⟨e', he', h.sound k e' he', ?_⟩
  intro w hw
  obtain ⟨e'', he'', hl⟩ := hc k w hw
  rw [he'] at he''
  cases he''
  exact hl

/-- Last-write-wins holds along a run exactly when every local store is in order: then no key is
lost, no stamp goes down, and with no call in progress each key holds an entry of the greatest
stamp written or received. -/
theorem lastWriteWins_iff (es : List (Event K V T)) :
    EachStep (step R) (fun c ev _ => c.inOrder ev = true) ({} : Engine K V P T) es ↔
      EachStep (step R) (fun c _ c' =>
        HashMap.Grows Entry.stamp c.replica.map c'.replica.map ∧
          (c'.quiescent = true → c'.Settled)) ({} : Engine K V P T) es := by
  constructor
  · intro h
    refine h.of_invariant (fun _ (c : Engine K V P T) => c.Inv) inv_empty ?_ ?_
    · intro _ c ev c' hi hs ho
      exact hi.step hs ho
    · intro _ c ev c' hi hs ho
      exact ⟨(grows_iff hs).2 ho, (hi.step hs ho).settled⟩
  · intro h es₁ ev es₂ c c' he hr hs
    exact (grows_iff hs).1 (h es₁ ev es₂ c c' he hr hs).1

def race : List (Event Nat Nat Nat) :=
  [.call (.insert 7 10), .call (.insert 7 20), .mint 0 1, .mint 1 2, .store 1]

/-- The first insert of the race now stores its older entry over the newer one. -/
theorem lastWriteWins_race : ∃ c c' : Engine Nat Nat Nat Nat,
    Runs (step numbered) {} race c ∧ c.step numbered (.store 0) = some c' ∧
      c.replica.map.lookup 7 = some (.present 2 20) ∧
      c'.replica.map.lookup 7 = some (.present 1 10) ∧
      c'.quiescent = true ∧ ¬ c'.Settled := by
  have h : ((runAll (step numbered) ({} : Engine Nat Nat Nat Nat) race).bind fun c =>
      (c.step numbered (.store 0)).map fun c' => (c.replica.map.lookup 7, c'.replica.map.lookup 7,
        c'.quiescent, decide ((7, .present 2 20) ∈ c'.history))) =
      some (some (.present 2 20), some (.present 1 10), true, true) := by
    decide
  obtain ⟨c, hc, h⟩ := Option.bind_eq_some_iff.1 h
  obtain ⟨c', hs, h⟩ := Option.map_eq_some_iff.1 h
  simp only [Prod.mk.injEq, decide_eq_true_eq] at h
  obtain ⟨hl, hl', hq, hh⟩ := h
  refine ⟨c, c', runs_of_runAll hc, hs, hl, hl', hq, ?_⟩
  intro hset
  obtain ⟨e, he, hn⟩ := hset 7 _ hh
  rw [hl'] at he
  cases he
  exact absurd (hn.le _ hh) (by decide)

end Engine

end Reconcile
