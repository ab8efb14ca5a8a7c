import Mathlib.Logic.Function.Basic
import Reconcile.Lib.Buckets
import Reconcile.Lib.Sorted

namespace Reconcile
open Lib
set_option autoImplicit true

def defaultTimeout : Nat := 60000

structure TimeoutWheel (E : Type) where
  wheel : Buckets Int E := ∅
  map : HashMap E Int := ∅
  timeout : Nat := defaultTimeout

variable {E : Type} [DecidableEq E]

namespace TimeoutWheel

def clearSlot (w : TimeoutWheel E) (e : E) : Buckets Int E :=
  match w.map.lookup e with
  | some oldInstant => w.wheel.drop oldInstant e
  | none => w.wheel

def insert (w : TimeoutWheel E) (e : E) (instant : Int) : TimeoutWheel E :=
  { w with
    wheel := (w.clearSlot e).add instant e
    map := w.map.insert e instant }

/-- The values whose timeout has elapsed, the earliest first; they stay tracked. -/
def expired (w : TimeoutWheel E) (now : Int) : List E :=
  ((w.wheel.toList.mergeSort fun a b => a.1 ≤ b.1).takeWhile
    fun slot => slot.1 + w.timeout < now).flatMap fun slot => slot.2.keys

def remove (w : TimeoutWheel E) (value : E) : Option E × TimeoutWheel E :=
  match w.map.lookup value with
  | none => (none, w)
  | some _ =>
    (some value, { w with
      wheel := w.clearSlot value
      map := w.map.erase value })

def tracked (w : TimeoutWheel E) (e : E) : Bool := w.map.contains e

theorem remove_snd (w : TimeoutWheel E) (value : E) :
    (w.remove value).2 = { w with wheel := w.clearSlot value, map := w.map.erase value } := by
  unfold remove
  split
  · next hn =>
    have herase : w.map.erase value = w.map :=
      AList.ext (List.kerase_of_notMem_keys (AList.lookup_eq_none.1 hn))
    rw [clearSlot, hn, herase]
  · rfl

def Indexed (w : TimeoutWheel E) : Prop :=
  ∀ i e, w.wheel.holds i e = true ↔ w.map.lookup e = some i

theorem indexed_empty (timeout : Nat) : ({ timeout := timeout } : TimeoutWheel E).Indexed := by
  intro i e
  exact iff_of_false Bool.false_ne_true (by simp)

variable {w : TimeoutWheel E}

theorem Indexed.holds_clearSlot (h : w.Indexed) (e : E) (i : Int) (x : E) :
    (w.clearSlot e).holds i x = (w.wheel.holds i x && decide (x ≠ e)) := by
  have hi := h i x
  unfold clearSlot
  by_cases hx : x = e
  · subst hx
    rw [decide_eq_false (not_not_intro rfl), Bool.and_false]
    split
    · next old ho =>
      rw [ho] at hi
      rw [Buckets.holds_drop]
      by_cases hio : i = old
      · simp [hio]
      · rw [Bool.eq_false_iff.2 fun hs => hio (Option.some.inj (hi.1 hs)).symm, Bool.false_and]
    · next hn =>
      rw [hn] at hi
      exact Bool.eq_false_iff.2 fun hs => Option.some_ne_none i (hi.1 hs).symm
  · split
    · simp [Buckets.holds_drop, hx]
    · simp [hx]

theorem Indexed.insert (h : w.Indexed) (e : E) (instant : Int) : (w.insert e instant).Indexed := by
  intro i x
  rw [TimeoutWheel.insert, Buckets.holds_add, h.holds_clearSlot, HashMap.lookup_insert_eq]
  by_cases hx : x = e
  · simp only [hx, ne_eq, not_true_eq_false, decide_false, Bool.and_false, and_true,
      Bool.false_or, decide_eq_true_eq, ↓reduceIte, Option.some.injEq]
    exact eq_comm
  · simpa [hx] using h i x

theorem Indexed.remove (h : w.Indexed) (value : E) : (w.remove value).2.Indexed := by
  intro i x
  rw [remove_snd, h.holds_clearSlot, HashMap.lookup_erase_eq, Bool.and_eq_true, h i x]
  by_cases hx : x = value <;> simp [hx]

theorem tracked_insert (w : TimeoutWheel E) (e : E) (instant : Int) (x : E) :
    (w.insert e instant).tracked x = (decide (x = e) || w.tracked x) :=
  HashMap.contains_insert w.map e x instant

theorem tracked_remove (w : TimeoutWheel E) (value x : E) :
    (w.remove value).2.tracked x = (w.tracked x && decide (x ≠ value)) := by
  rw [remove_snd]
  exact HashMap.contains_erase w.map value x

def slots (w : TimeoutWheel E) : List (Int × HashSet E) :=
  w.wheel.toList.mergeSort fun a b => a.1 ≤ b.1

omit [DecidableEq E] in
theorem mem_slots (w : TimeoutWheel E) (i : Int) (bucket : HashSet E) :
    (i, bucket) ∈ w.slots ↔ w.wheel.lookup i = some bucket := by
  rw [slots, List.mem_mergeSort, HashMap.mem_toList]

omit [DecidableEq E] in
theorem slots_pairwise (w : TimeoutWheel E) : w.slots.Pairwise (·.1 < ·.1) :=
  Sorted.pairwise_lt_mergeSort (HashMap.keys_toList_nodup w.wheel)

omit [DecidableEq E] in
theorem expired_eq (w : TimeoutWheel E) (now : Int) :
    w.expired now =
      (w.slots.takeWhile fun slot => slot.1 + w.timeout < now).flatMap fun slot => slot.2.keys :=
  rfl

theorem Indexed.lookup_of_mem_slots (h : w.Indexed) {slot : Int × HashSet E} (hs : slot ∈ w.slots)
    (he : e ∈ slot.2.keys) : w.map.lookup e = some slot.1 := by
  refine (h slot.1 e).1 ?_
  rw [Buckets.holds, (w.mem_slots slot.1 slot.2).1 hs]
  exact (HashMap.contains_iff_mem slot.2 e).2 he

theorem Indexed.exists_slot (h : w.Indexed) (he : w.map.lookup e = some i) :
    ∃ bucket, (i, bucket) ∈ w.slots ∧ e ∈ bucket.keys := by
  obtain ⟨bucket, hb, hc⟩ := (Option.any_eq_true _ _).1 ((h i e).2 he)
  exact ⟨bucket, (w.mem_slots i bucket).2 hb, (HashMap.contains_iff_mem bucket e).1 hc⟩

/-- What has expired is exactly what is tracked under an instant whose timeout has elapsed. -/
theorem Indexed.mem_expired (h : w.Indexed) (now : Int) (e : E) :
    e ∈ w.expired now ↔ ∃ i, w.map.lookup e = some i ∧ i + w.timeout < now := by
  have hdown : ∀ a b : Int × HashSet E, a.1 < b.1 →
      decide (b.1 + w.timeout < now) = true → decide (a.1 + w.timeout < now) = true := by
    intro a b hab hb
    simp only [decide_eq_true_eq] at hb ⊢
    omega
  rw [expired_eq, List.mem_flatMap]
  -- the scan stops at the first slot that has not expired and misses none after it
  simp only [mem_takeWhile_of_pairwise w.slots_pairwise hdown, decide_eq_true_eq]
  constructor
  · rintro ⟨slot, ⟨hs, hi⟩, he⟩
    exact ⟨slot.1, h.lookup_of_mem_slots hs he, hi⟩
  · rintro ⟨i, he, hi⟩
    obtain ⟨bucket, hs, hb⟩ := h.exists_slot he
    exact ⟨(i, bucket), ⟨hs, hi⟩, hb⟩

theorem Indexed.nodup_expired (h : w.Indexed) (now : Int) : (w.expired now).Nodup := by
  have hsub : (w.slots.takeWhile fun slot => slot.1 + w.timeout < now).Sublist w.slots :=
    List.takeWhile_sublist _
  refine List.nodup_flatMap.2 ⟨fun slot _ => slot.2.keys_nodup, ?_⟩
  refine (w.slots_pairwise.sublist hsub).imp_of_mem ?_
  intro a b ha hb hlt e hea heb
  have hia := h.lookup_of_mem_slots (hsub.subset ha) hea
  have hib := h.lookup_of_mem_slots (hsub.subset hb) heb
  rw [hia, Option.some.injEq] at hib
  omega

/-- The scan as it runs: a sum past the last representable instant panics, and a slot that has not
expired ends the scan before any later sum is taken. -/
def scan (lastInstant : Int) (timeout : Nat) (now : Int) :
    List (Int × HashSet E) → Option (List E)
  | [] => some []
  | slot :: slots =>
    if lastInstant < slot.1 + timeout then none
    else if slot.1 + timeout < now then
      (scan lastInstant timeout now slots).map (slot.2.keys ++ ·)
    else some []

def checkedExpired (w : TimeoutWheel E) (lastInstant now : Int) : Option (List E) :=
  scan lastInstant w.timeout now w.slots

omit [DecidableEq E] in
theorem scan_of_representable {lastInstant : Int} {timeout : Nat} {l : List (Int × HashSet E)}
    (h : ∀ slot ∈ l, slot.1 + timeout ≤ lastInstant) (now : Int) :
    scan lastInstant timeout now l =
      some ((l.takeWhile fun slot => slot.1 + timeout < now).flatMap fun slot => slot.2.keys) := by
  induction l with
  | nil => rfl
  | cons slot l ih =>
    obtain ⟨hslot, hl⟩ := List.forall_mem_cons.1 h
    rw [scan, if_neg (by omega), ih hl, List.takeWhile_cons]
    by_cases hnow : slot.1 + timeout < now
    · rw [if_pos hnow, decide_eq_true hnow]
      rfl
    · rw [if_neg hnow, decide_eq_false hnow]
      rfl

def setTimeout (w : TimeoutWheel E) (timeout : Nat) : TimeoutWheel E := { w with timeout := timeout }

inductive WheelCall (E : Type) where
  | insert (e : E) (instant : Int)
  | remove (value : E)
  | setTimeout (timeout : Nat)

def call (w : TimeoutWheel E) : WheelCall E → TimeoutWheel E
  | .insert e instant => w.insert e instant
  | .remove value => (w.remove value).2
  | .setTimeout timeout => w.setTimeout timeout

/-- What the wheel is for: the instant each value was last inserted with, unless it was removed
since, and the timeout that applies to all of them. -/
structure Tracking (E : Type) where
  instantOf : E → Option Int := fun _ => none
  timeout : Nat := defaultTimeout

def WheelCall.onTracking (t : Tracking E) : WheelCall E → Tracking E
  | .insert e instant => { t with instantOf := Function.update t.instantOf e (some instant) }
  | .remove value => { t with instantOf := Function.update t.instantOf value none }
  | .setTimeout timeout => { t with timeout := timeout }

theorem WheelCall.instantOf_insert (t : Tracking E) (e : E) (instant : Int) (x : E) :
    ((WheelCall.insert e instant).onTracking t).instantOf x =
      if x = e then some instant else t.instantOf x :=
  Function.update_apply ..

theorem WheelCall.instantOf_remove (t : Tracking E) (value x : E) :
    ((WheelCall.remove value).onTracking t).instantOf x =
      if x = value then none else t.instantOf x :=
  Function.update_apply ..

structure Tracks (w : TimeoutWheel E) (t : Tracking E) : Prop where
  lookup : ∀ e, w.map.lookup e = t.instantOf e
  indexed : w.Indexed
  filled : w.wheel.Filled
  timeout : w.timeout = t.timeout

theorem filled_clearSlot (h : w.wheel.Filled) (e : E) : (w.clearSlot e).Filled := by
  unfold clearSlot
  split
  · exact h.drop _ e
  · exact h

theorem tracks_empty (timeout : Nat) :
    Tracks ({ timeout := timeout } : TimeoutWheel E) { timeout := timeout } :=
  ⟨fun _ => rfl, indexed_empty timeout, Buckets.filled_empty, rfl⟩

theorem Tracks.call (h : Tracks w t) (c : WheelCall E) : Tracks (w.call c) (c.onTracking t) := by
  cases c with
  | insert e instant =>
    refine ⟨fun x => ?_, h.indexed.insert e instant, (filled_clearSlot h.filled e).add instant e,
      h.timeout⟩
    rw [WheelCall.instantOf_insert, ← h.lookup x]
    exact HashMap.lookup_insert_eq w.map e x instant
  | remove value =>
    have hindexed := h.indexed.remove value
    rw [remove_snd] at hindexed
    rw [TimeoutWheel.call, remove_snd]
    refine ⟨fun x => ?_, hindexed, filled_clearSlot h.filled value, h.timeout⟩
    rw [WheelCall.instantOf_remove, ← h.lookup x]
    exact HashMap.lookup_erase_eq w.map value x
  | setTimeout timeout => exact ⟨h.lookup, h.indexed, h.filled, rfl⟩

theorem Tracks.calls (h : Tracks w t) (calls : List (WheelCall E)) :
    Tracks (calls.foldl TimeoutWheel.call w) (calls.foldl WheelCall.onTracking t) := by
  induction calls generalizing w t with
  | nil => exact h
  | cons c calls ih => exact ih (h.call c)

/-- Every slot has a value, so representable sums of the values are those of the slots. -/
theorem Tracks.representable_slots (h : Tracks w t)
    (hfit : ∀ e i, t.instantOf e = some i → i + t.timeout ≤ lastInstant) :
    ∀ slot ∈ w.slots, slot.1 + w.timeout ≤ lastInstant := by
  rintro ⟨i, bucket⟩ hs
  have hne : bucket.keys ≠ [] := by
    intro hnil
    exact h.filled i bucket ((w.mem_slots i bucket).1 hs)
      (AList.ext (List.map_eq_nil_iff.1 hnil))
  obtain ⟨e, he⟩ := List.exists_mem_of_ne_nil _ hne
  have hi := h.indexed.lookup_of_mem_slots hs he
  rw [h.lookup] at hi
  rw [h.timeout]
  exact hfit e i hi

theorem Tracks.checkedExpired_eq (h : Tracks w t)
    (hfit : ∀ e i, t.instantOf e = some i → i + t.timeout ≤ lastInstant) (now : Int) :
    w.checkedExpired lastInstant now = some (w.expired now) :=
  scan_of_representable (h.representable_slots hfit) now

/-- After any calls on an empty wheel its buckets and its index describe the last instant of each
value, without an empty bucket; with every sum representable, what has expired is yielded, each
value once. -/
theorem wheel_refines_map (lastInstant : Int) (timeout : Nat) (calls : List (WheelCall E))
    (hfit : ∀ e i, (calls.foldl WheelCall.onTracking { timeout := timeout }).instantOf e = some i →
      i + (calls.foldl WheelCall.onTracking ({ timeout := timeout } : Tracking E)).timeout ≤
        lastInstant) (now : Int) :
    let w : TimeoutWheel E := calls.foldl call { timeout := timeout }
    let t : Tracking E := calls.foldl WheelCall.onTracking { timeout := timeout }
    (∀ e, w.map.lookup e = t.instantOf e) ∧
      (∀ i e, w.wheel.holds i e = true ↔ t.instantOf e = some i) ∧
      (∀ i bucket, w.wheel.lookup i = some bucket → bucket ≠ ∅) ∧
      ∃ values, w.checkedExpired lastInstant now = some values ∧ values.Nodup ∧
        ∀ e, e ∈ values ↔ ∃ i, t.instantOf e = some i ∧ i + t.timeout < now := by
  intro w t
  have h : Tracks w t := (tracks_empty timeout).calls calls
  refine ⟨h.lookup, fun i e => ?_, h.filled, w.expired now, h.checkedExpired_eq hfit now,
    h.indexed.nodup_expired now, fun e => ?_⟩
  · rw [h.indexed i e, h.lookup]
  · rw [h.indexed.mem_expired, h.lookup, h.timeout]

/-- Two values share an instant, one of them is inserted again later, and a third is removed. -/
theorem wheel_refines_map_shared :
    ∃ values, TimeoutWheel.checkedExpired
        ([.insert 1 5, .insert 2 5, .insert 3 5, .insert 2 9, .remove 3, .setTimeout 1].foldl call
          ({ timeout := 0 } : TimeoutWheel Nat)) 100 8 = some values ∧
      values.Nodup ∧ 1 ∈ values ∧ 2 ∉ values ∧ 3 ∉ values := by
  have hfit : ∀ e i, ([.insert 1 5, .insert 2 5, .insert 3 5, .insert 2 9, .remove 3,
      .setTimeout 1].foldl WheelCall.onTracking ({ timeout := 0 } : Tracking Nat)).instantOf e =
        some i → i + 1 ≤ (100 : Int) := by
    intro e i hi
    simp only [List.foldl_cons, List.foldl_nil, WheelCall.onTracking, Function.update_apply] at hi
    grind
  obtain ⟨-, -, -, values, hv, hnodup, hmem⟩ := wheel_refines_map 100 0 _ hfit 8
  refine ⟨values, hv, hnodup, (hmem 1).2 ⟨5, rfl, by decide⟩, fun h => ?_, fun h => ?_⟩
  · obtain ⟨i, hi, hlt⟩ := (hmem 2).1 h
    cases hi
    exact absurd hlt (by decide)
  · obtain ⟨i, hi, -⟩ := (hmem 3).1 h
    cases hi

end TimeoutWheel

end Reconcile
