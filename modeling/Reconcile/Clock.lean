import Mathlib.Algebra.Order.Ring.Nat
import Mathlib.Data.Prod.Lex
import Mathlib.Order.Fin.Basic

namespace Reconcile
set_option autoImplicit true

instance neZeroPhysical : NeZero (2 ^ 64 : Nat) := ⟨by decide⟩
instance neZeroLogical : NeZero (2 ^ 32 : Nat) := ⟨by decide⟩

abbrev PhysicalTime : Type := Fin (2 ^ 64)
abbrev LogicalCounter : Type := Fin (2 ^ 32)
abbrev NodeId : Type := Fin (2 ^ 64)

/-- A reading of a hybrid logical clock; the physical part, in milliseconds, is compared first. -/
structure Hlc where
  physical : PhysicalTime
  logical : LogicalCounter
  deriving DecidableEq

structure Timestamp where
  hlc : Hlc
  nodeId : NodeId
  deriving DecidableEq

namespace Hlc

instance : LinearOrder Hlc :=
  LinearOrder.lift' (fun h => toLex (h.physical, h.logical)) fun a b h => by
    cases a
    cases b
    cases h
    rfl

theorem lt_iff (a b : Hlc) :
    a < b ↔ a.physical < b.physical ∨ a.physical = b.physical ∧ a.logical < b.logical :=
  Prod.Lex.toLex_lt_toLex

theorem le_iff (a b : Hlc) :
    a ≤ b ↔ a.physical < b.physical ∨ a.physical = b.physical ∧ a.logical ≤ b.logical :=
  Prod.Lex.toLex_le_toLex

def start : Hlc := ⟨0, 0⟩

def top : Hlc := ⟨Fin.last (2 ^ 64 - 1), Fin.last (2 ^ 32 - 1)⟩

end Hlc

namespace Timestamp

instance : LinearOrder Timestamp :=
  LinearOrder.lift' (fun t => toLex (t.hlc, t.nodeId)) fun a b h => by
    cases a
    cases b
    cases h
    rfl

theorem lt_of_hlc_lt {a b : Timestamp} (h : a.hlc < b.hlc) : a < b :=
  Prod.Lex.toLex_lt_toLex.2 (.inl h)

end Timestamp

/-- What the register crate supplies for its clocks. -/
structure HlcArithmetic where
  nextTick : Hlc → Hlc
  advancePastRemote : Hlc → PhysicalTime → PhysicalTime → LogicalCounter → Hlc

/-- A tick moves a reading forward, and advancing leaves neither the clock nor the remote reading
ahead. Nothing is said of the last reading, where the counter has nowhere to go. -/
structure HlcArithmetic.Lawful (H : HlcArithmetic) : Prop where
  lt_nextTick : ∀ h, h ≠ Hlc.top → h < H.nextTick h
  le_advance : ∀ last pt admitted logical, last ≠ Hlc.top → ⟨admitted, logical⟩ ≠ Hlc.top →
    last ≤ H.advancePastRemote last pt admitted logical
  remote_le_advance : ∀ last pt admitted logical, last ≠ Hlc.top → ⟨admitted, logical⟩ ≠ Hlc.top →
    ⟨admitted, logical⟩ ≤ H.advancePastRemote last pt admitted logical

def saturatingAddMs (t drift : PhysicalTime) : PhysicalTime :=
  ⟨min (t.val + drift.val) (2 ^ 64 - 1), by omega⟩

/-- A remote physical time, capped at the local one plus the drift budget. -/
def clampedToDrift (remote pt drift : PhysicalTime) : PhysicalTime :=
  min remote (saturatingAddMs pt drift)

structure HlcClock where
  nodeId : NodeId
  maxClockDrift : PhysicalTime := 3600000
  last : Hlc := Hlc.start

namespace HlcClock

variable (H : HlcArithmetic)

def now (c : HlcClock) (pt : PhysicalTime) : Timestamp × HlcClock :=
  let next := if c.last.physical < pt then ⟨pt, 0⟩ else H.nextTick c.last
  (⟨next, c.nodeId⟩, { c with last := next })

def observe (c : HlcClock) (remote : Timestamp) (pt : PhysicalTime) : HlcClock :=
  { c with
    last := H.advancePastRemote c.last pt (clampedToDrift remote.hlc.physical pt c.maxClockDrift)
      remote.hlc.logical }

def observeTrusted (c : HlcClock) (remote : Timestamp) (pt : PhysicalTime) : HlcClock :=
  { c with last := H.advancePastRemote c.last pt remote.hlc.physical remote.hlc.logical }

/-- The clock can pass a remote reading: neither of the two is the last one there is. -/
def passes (c : HlcClock) (remote : Hlc) : Bool :=
  c.last != Hlc.top && remote != Hlc.top

def admitted (c : HlcClock) (remote : Timestamp) (pt : PhysicalTime) : Hlc :=
  ⟨clampedToDrift remote.hlc.physical pt c.maxClockDrift, remote.hlc.logical⟩

variable {H} {c : HlcClock}

theorem passes_iff (c : HlcClock) (remote : Hlc) :
    c.passes remote = true ↔ c.last ≠ Hlc.top ∧ remote ≠ Hlc.top := by
  rw [passes, Bool.and_eq_true, bne_iff_ne, bne_iff_ne]

theorem last_lt_now (hH : H.Lawful) (h : c.last ≠ Hlc.top) (pt : PhysicalTime) :
    c.last < (c.now H pt).1.hlc := by
  unfold now
  simp only
  split
  · next hpt => exact (Hlc.lt_iff _ _).2 (.inl hpt)
  · exact hH.lt_nextTick c.last h

theorem last_le_observe (hH : H.Lawful) {remote : Timestamp} {pt : PhysicalTime}
    (h : c.passes (c.admitted remote pt) = true) : c.last ≤ (c.observe H remote pt).last := by
  obtain ⟨hlast, hremote⟩ := (passes_iff _ _).1 h
  exact hH.le_advance _ _ _ _ hlast hremote

theorem admitted_of_le {remote : Timestamp} {pt : PhysicalTime}
    (h : remote.hlc.physical ≤ saturatingAddMs pt c.maxClockDrift) :
    c.admitted remote pt = remote.hlc := by
  have hclamped : clampedToDrift remote.hlc.physical pt c.maxClockDrift = remote.hlc.physical :=
    min_eq_left h
  rw [admitted, hclamped]

/-- A remote stamp within the drift budget is not ahead of the clock that observed it. -/
theorem remote_le_observe (hH : H.Lawful) {remote : Timestamp} {pt : PhysicalTime}
    (h : remote.hlc.physical ≤ saturatingAddMs pt c.maxClockDrift)
    (hp : c.passes remote.hlc = true) : remote.hlc ≤ (c.observe H remote pt).last := by
  obtain ⟨hlast, hremote⟩ := (passes_iff _ _).1 hp
  have hle := hH.remote_le_advance c.last pt (c.admitted remote pt).physical remote.hlc.logical hlast
  rw [admitted_of_le h] at hle
  have hobserved : (c.observe H remote pt).last =
      H.advancePastRemote c.last pt remote.hlc.physical remote.hlc.logical := by
    change H.advancePastRemote c.last pt (c.admitted remote pt).physical _ = _
    rw [admitted_of_le h]
  rw [hobserved]
  exact hle hremote

theorem last_le_observeTrusted (hH : H.Lawful) {remote : Timestamp}
    (h : c.passes remote.hlc = true) (pt : PhysicalTime) :
    c.last ≤ (c.observeTrusted H remote pt).last := by
  obtain ⟨hlast, hremote⟩ := (passes_iff _ _).1 h
  exact hH.le_advance _ _ _ _ hlast hremote

theorem remote_le_observeTrusted (hH : H.Lawful) {remote : Timestamp}
    (h : c.passes remote.hlc = true) (pt : PhysicalTime) :
    remote.hlc ≤ (c.observeTrusted H remote pt).last := by
  obtain ⟨hlast, hremote⟩ := (passes_iff _ _).1 h
  exact hH.remote_le_advance _ _ _ _ hlast hremote

end HlcClock

namespace HlcArithmetic

/-- The counter rolls over into the physical part, which stops at its last value. -/
def tick (h : Hlc) : Hlc :=
  if hl : h.logical.val + 1 < 2 ^ 32 then ⟨h.physical, ⟨h.logical.val + 1, hl⟩⟩
  else ⟨saturatingAddMs h.physical 1, 0⟩

theorem lt_tick {h : Hlc} (ht : h ≠ Hlc.top) : h < tick h := by
  unfold tick
  split
  · exact (Hlc.lt_iff _ _).2 (.inr ⟨rfl, Nat.lt_succ_self _⟩)
  · next hl =>
    refine (Hlc.lt_iff _ _).2 (.inl ?_)
    have hp : h.physical.val + 1 < 2 ^ 64 := by
      by_contra hp
      refine ht ?_
      obtain ⟨physical, logical⟩ := h
      have hphysical : physical = Fin.last (2 ^ 64 - 1) := by
        apply Fin.ext
        simp only [Fin.val_last] at hp ⊢
        omega
      have hlogical : logical = Fin.last (2 ^ 32 - 1) := by
        apply Fin.ext
        simp only [Fin.val_last] at hl ⊢
        omega
      rw [hphysical, hlogical]
      rfl
    change h.physical.val < min (h.physical.val + 1) (2 ^ 64 - 1)
    omega

/-- The usual receive rule: the greatest of the three physical parts, ticked past the two readings
unless the wall clock is ahead of both. -/
def standard : HlcArithmetic where
  nextTick := tick
  advancePastRemote last pt admitted logical :=
    if last.physical < pt ∧ admitted < pt then ⟨pt, 0⟩ else tick (max last ⟨admitted, logical⟩)

theorem max_ne {a b top : Hlc} (ha : a ≠ top) (hb : b ≠ top) : max a b ≠ top := by
  rcases max_choice a b with h | h
  · rw [h]
    exact ha
  · rw [h]
    exact hb

theorem lawful_standard : standard.Lawful where
  lt_nextTick _ h := lt_tick h
  le_advance last pt admitted logical hlast hremote := by
    simp only [standard]
    split
    · next h => exact (Hlc.le_iff _ _).2 (.inl h.1)
    · exact (le_max_left _ _).trans (le_of_lt (lt_tick (max_ne hlast hremote)))
  remote_le_advance last pt admitted logical hlast hremote := by
    simp only [standard]
    split
    · next h => exact (Hlc.le_iff _ _).2 (.inl h.2)
    · exact (le_max_right _ _).trans (le_of_lt (lt_tick (max_ne hlast hremote)))

end HlcArithmetic

end Reconcile
