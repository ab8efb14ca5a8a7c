import Reconcile.Lib.HashMap
import Reconcile.Lib.Transition

namespace Reconcile
open Lib
set_option autoImplicit true

def maxRepairAttempts : Nat := 4

structure PendingRepair where
  deadline : Nat
  attempts : Nat
  deriving DecidableEq

namespace PendingRepair

def advance (now interval : Nat) (r : PendingRepair) : Option PendingRepair :=
  if now < r.deadline then some r
  else if maxRepairAttempts < r.attempts + 1 then none
  else some ⟨now + interval, r.attempts + 1⟩

def due (now : Nat) (r : PendingRepair) : Bool :=
  r.deadline ≤ now && r.attempts + 1 ≤ maxRepairAttempts

theorem due_iff {r : PendingRepair} :
    r.due now = true ↔ r.deadline ≤ now ∧ r.attempts < maxRepairAttempts := by
  rw [due, Bool.and_eq_true, decide_eq_true_eq, decide_eq_true_eq]
  exact Iff.rfl

theorem advance_of_due {r : PendingRepair} (h : r.due now = true) (interval : Nat) :
    r.advance now interval = some ⟨now + interval, r.attempts + 1⟩ := by
  obtain ⟨hd, ha⟩ := due_iff.1 h
  rw [advance, if_neg (Nat.not_lt.2 hd), if_neg (Nat.not_lt.2 ha)]

theorem advance_of_not_due {r : PendingRepair} (h : r.due now = false) (interval : Nat) :
    r.advance now interval = some r ∨
      (r.advance now interval = none ∧ maxRepairAttempts ≤ r.attempts) := by
  rw [advance]
  split
  · exact .inl rfl
  · next hd =>
    split
    · next ha => exact .inr ⟨rfl, Nat.le_of_lt_succ ha⟩
    · next ha =>
      have hdue := due_iff.2 ⟨Nat.not_lt.1 hd, Nat.not_lt.1 ha⟩
      rw [h] at hdue
      cases hdue

end PendingRepair

/-- What happens to the table: a comparison or an update batch is noted, a peer completes a logical
payload, the repair timer fires. The interval is the one read at that time. -/
inductive RepairEvent (P : Type) where
  | note (peer : P) (now interval : Nat)
  | reply (peer : P)
  | tick (now interval : Nat)

abbrev PendingRepairs (P : Type) : Type := HashMap P PendingRepair

variable {P : Type} [DecidableEq P]

namespace PendingRepairs

/-- A retry that is scheduled keeps its deadline. -/
def notePendingRepair (t : PendingRepairs P) (peer : P) (now interval : Nat) : PendingRepairs P :=
  if t.contains peer then t else t.insert peer ⟨now + interval, 0⟩

def retryDueRepairs (t : PendingRepairs P) (now interval : Nat) : List P × PendingRepairs P :=
  ((t.toList.filter fun kr => kr.2.due now).map Prod.fst, t.retainMut (·.advance now interval))

def step (t : PendingRepairs P) : RepairEvent P → List P × PendingRepairs P
  | .note peer now interval => ([], t.notePendingRepair peer now interval)
  | .reply peer => ([], t.erase peer)
  | .tick now interval => t.retryDueRepairs now interval

theorem lookup_note (t : PendingRepairs P) (p peer : P) (now interval : Nat) :
    (t.notePendingRepair peer now interval).lookup p =
      if p = peer then some ((t.lookup p).getD ⟨now + interval, 0⟩) else t.lookup p := by
  rw [notePendingRepair, HashMap.contains]
  split
  · next h =>
    split
    · next hp =>
      subst hp
      obtain ⟨r, hr⟩ := Option.isSome_iff_exists.1 h
      rw [hr, Option.getD_some]
    · rfl
  · next h =>
    rw [HashMap.lookup_insert_eq]
    split
    · next hp =>
      subst hp
      rw [Bool.not_eq_true, Option.isSome_eq_false_iff, Option.isNone_iff_eq_none] at h
      rw [h, Option.getD_none]
    · rfl

theorem mem_retryDueRepairs (t : PendingRepairs P) (p : P) (now interval : Nat) :
    p ∈ (t.retryDueRepairs now interval).1 ↔ ∃ r, t.lookup p = some r ∧ r.due now = true := by
  simp only [retryDueRepairs, List.mem_map, List.mem_filter]
  constructor
  · rintro ⟨⟨q, r⟩, ⟨hr, hd⟩, rfl⟩
    exact ⟨r, (HashMap.mem_toList t q r).1 hr, hd⟩
  · rintro ⟨r, hr, hd⟩
    exact ⟨(p, r), ⟨(HashMap.mem_toList t p r).2 hr, hd⟩, rfl⟩

theorem lookup_step {t : PendingRepairs P} {e : RepairEvent P} {p : P} {r' : PendingRepair}
    (h : (t.step e).2.lookup p = some r') :
    (t.lookup p = some r' ∧ e ≠ .reply p ∧ p ∉ (t.step e).1) ∨
      (∃ now interval, e = .note p now interval ∧ t.lookup p = none ∧ r' = ⟨now + interval, 0⟩) ∨
      ∃ now interval r, e = .tick now interval ∧ t.lookup p = some r ∧ r.due now = true ∧
        p ∈ (t.step e).1 ∧ r' = ⟨now + interval, r.attempts + 1⟩ := by
  cases e with
  | note peer now interval =>
    rw [step, lookup_note] at h
    split at h
    · next hp =>
      subst hp
      cases hl : t.lookup p with
      | none =>
        rw [hl, Option.getD_none] at h
        cases h
        exact .inr (.inl ⟨now, interval, rfl, rfl, rfl⟩)
      | some r =>
        rw [hl, Option.getD_some] at h
        exact .inl ⟨h, nofun, nofun⟩
    · exact .inl ⟨h, nofun, nofun⟩
  | reply peer =>
    rw [step, HashMap.lookup_erase_eq] at h
    split at h
    · cases h
    · next hp =>
      refine .inl ⟨h, ?_, nofun⟩
      rintro ⟨⟩
      exact hp rfl
  | tick now interval =>
    rw [step, retryDueRepairs, HashMap.lookup_retainMut] at h
    obtain ⟨r, hr, ha⟩ := Option.bind_eq_some_iff.1 h
    cases hd : r.due now with
    | true =>
      rw [r.advance_of_due hd] at ha
      cases ha
      exact .inr (.inr ⟨now, interval, r, rfl, hr, hd,
        (t.mem_retryDueRepairs p now interval).2 ⟨r, hr, hd⟩, rfl⟩)
    | false =>
      rcases r.advance_of_not_due hd interval with he | ⟨he, _⟩
      · rw [he] at ha
        cases ha
        refine .inl ⟨hr, nofun, ?_⟩
        intro hp
        obtain ⟨r', hr', hd'⟩ := (t.mem_retryDueRepairs p now interval).1 hp
        rw [hr] at hr'
        cases hr'
        rw [hd] at hd'
        cases hd'
      · rw [he] at ha
        cases ha

theorem lookup_step_none {t : PendingRepairs P} {e : RepairEvent P} {p : P} {r : PendingRepair}
    (hr : t.lookup p = some r) (h : (t.step e).2.lookup p = none) (he : e ≠ .reply p) :
    (∃ now interval, e = .tick now interval) ∧ p ∉ (t.step e).1 ∧
      maxRepairAttempts ≤ r.attempts := by
  cases e with
  | note peer now interval =>
    rw [step, lookup_note, hr] at h
    split at h <;> cases h
  | reply peer =>
    rw [step, HashMap.lookup_erase_eq] at h
    split at h
    · next hp => exact absurd (congrArg _ hp.symm) he
    · rw [hr] at h
      cases h
  | tick now interval =>
    rw [step, retryDueRepairs, HashMap.lookup_retainMut, hr, Option.bind_some] at h
    cases hd : r.due now with
    | true =>
      rw [r.advance_of_due hd] at h
      cases h
    | false =>
      rcases r.advance_of_not_due hd interval with ha | ⟨_, ha⟩
      · rw [h] at ha
        cases ha
      · refine ⟨⟨now, interval, rfl⟩, ?_, ha⟩
        intro hp
        obtain ⟨r', hr', hd'⟩ := (t.mem_retryDueRepairs p now interval).1 hp
        rw [hr] at hr'
        cases hr'
        rw [hd] at hd'
        cases hd'

end PendingRepairs

def retriesTo (p : P) (tr : List (RepairEvent P × List P)) : Nat := tr.countP fun x => p ∈ x.2

def RepairEvent.notes (p : P) : RepairEvent P → Bool
  | .note peer _ _ => peer = p
  | _ => false

/-- The next note of the peer opens an entry: there is none after these steps. -/
def Opens (p : P) (before : List (RepairEvent P × List P)) : Prop :=
  ∃ t, Traces PendingRepairs.step ∅ before t ∧ t.lookup p = none

/-- A step that gives the peer its deadline: a note that opens an entry, or a retry. -/
def Arms (p : P) (before : List (RepairEvent P × List P)) (deadline : Nat) :
    RepairEvent P × List P → Prop
  | (.note peer now interval, _) => peer = p ∧ Opens p before ∧ deadline = now + interval
  | (.tick now interval, due) => p ∈ due ∧ deadline = now + interval
  | (.reply _, _) => False

theorem retries_append (p : P) (tr tr' : List (RepairEvent P × List P)) :
    retriesTo p (tr ++ tr') = retriesTo p tr + retriesTo p tr' := List.countP_append

theorem retries_singleton (p : P) (x : RepairEvent P × List P) :
    retriesTo p [x] = if p ∈ x.2 then 1 else 0 := by
  simp only [retriesTo, List.countP_singleton, decide_eq_true_eq]

/-- How an entry came about: the note that opened it, with the retries since, and the step that
set its deadline; the peer has not replied after either. -/
structure Episode (p : P) (tr : List (RepairEvent P × List P)) (r : PendingRepair) : Prop where
  opened : ∃ before now interval since, tr = before ++ (.note p now interval, []) :: since ∧
    Opens p before ∧ (∀ y ∈ since, y.1 ≠ .reply p) ∧ retriesTo p since = r.attempts
  armed : ∃ before x since, tr = before ++ x :: since ∧ Arms p before r.deadline x ∧
    ∀ y ∈ since, y.1 ≠ .reply p ∧ p ∉ y.2
  bounded : r.attempts ≤ maxRepairAttempts

namespace Episode

variable {p : P} {tr : List (RepairEvent P × List P)} {r : PendingRepair}

theorem start (h : Opens p tr) (now interval : Nat) :
    Episode p (tr ++ [(.note p now interval, [])]) ⟨now + interval, 0⟩ where
  opened := ⟨tr, now, interval, [], rfl, h, nofun, rfl⟩
  armed := ⟨tr, _, [], rfl, ⟨rfl, h, rfl⟩, nofun⟩
  bounded := Nat.zero_le _

theorem kept (h : Episode p tr r) {x : RepairEvent P × List P} (hx : x.1 ≠ .reply p)
    (hp : p ∉ x.2) : Episode p (tr ++ [x]) r where
  opened := by
    obtain ⟨before, now, interval, since, he, ho, hs, hn⟩ := h.opened
    refine ⟨before, now, interval, since ++ [x], ?_, ho, ?_, ?_⟩
    · rw [he, List.append_assoc, List.cons_append]
    · intro y hy
      rcases List.mem_append.1 hy with hy | hy
      · exact hs y hy
      · rwa [List.mem_singleton.1 hy]
    · rw [retries_append, retries_singleton, if_neg hp, hn, Nat.add_zero]
  armed := by
    obtain ⟨before, z, since, he, hz, hs⟩ := h.armed
    refine ⟨before, z, since ++ [x], ?_, hz, ?_⟩
    · rw [he, List.append_assoc, List.cons_append]
    · intro y hy
      rcases List.mem_append.1 hy with hy | hy
      · exact hs y hy
      · rw [List.mem_singleton.1 hy]
        exact ⟨hx, hp⟩
  bounded := h.bounded

theorem retried (h : Episode p tr r) {due : List P} (hp : p ∈ due)
    (ha : r.attempts < maxRepairAttempts) (now interval : Nat) :
    Episode p (tr ++ [(.tick now interval, due)]) ⟨now + interval, r.attempts + 1⟩ where
  opened := by
    obtain ⟨before, t, d, since, he, ho, hs, hn⟩ := h.opened
    refine ⟨before, t, d, since ++ [(.tick now interval, due)], ?_, ho, ?_, ?_⟩
    · rw [he, List.append_assoc, List.cons_append]
    · intro y hy
      rcases List.mem_append.1 hy with hy | hy
      · exact hs y hy
      · rw [List.mem_singleton.1 hy]
        exact nofun
    · rw [retries_append, retries_singleton, if_pos hp, hn]
  armed := ⟨tr, _, [], rfl, ⟨hp, rfl⟩, nofun⟩
  bounded := ha

end Episode

namespace PendingRepairs

theorem episode {tr : List (RepairEvent P × List P)} {t : PendingRepairs P}
    (h : Traces step ∅ tr t) (p : P) : ∀ r, t.lookup p = some r → Episode p tr r := by
  induction h with
  | start =>
    intro r hr
    rw [AList.lookup_empty] at hr
    cases hr
  | snoc h e ih =>
    intro r' hr'
    rcases lookup_step hr' with ⟨hr, he, hp⟩ | ⟨now, interval, rfl, hnone, rfl⟩ |
      ⟨now, interval, r, rfl, hr, hd, hp, rfl⟩
    · exact (ih r' hr).kept he hp
    · exact Episode.start ⟨_, h, hnone⟩ now interval
    · exact (ih r hr).retried hp (PendingRepair.due_iff.1 hd).2 now interval

def credit (slot : Option PendingRepair) : Nat :=
  slot.elim 0 fun r => maxRepairAttempts - r.attempts

theorem credit_step (t : PendingRepairs P) (e : RepairEvent P) (p : P) :
    (if p ∈ (t.step e).1 then 1 else 0) + credit ((t.step e).2.lookup p) ≤
      credit (t.lookup p) + maxRepairAttempts * if e.notes p then 1 else 0 := by
  cases hl : (t.step e).2.lookup p with
  | some r' =>
    rcases lookup_step hl with ⟨hr, _, hp⟩ | ⟨now, interval, rfl, hr, rfl⟩ |
      ⟨now, interval, r, rfl, hr, hd, hp, rfl⟩
    · rw [if_neg hp, hr, Nat.zero_add]
      exact Nat.le_add_right ..
    · have hn : (RepairEvent.note p now interval).notes p = true := decide_eq_true rfl
      have hp : p ∉ (t.step (.note p now interval)).1 := List.not_mem_nil
      rw [if_pos hn, if_neg hp, hr, Nat.zero_add, Nat.mul_one]
      exact Nat.le_add_left ..
    · have ha := (PendingRepair.due_iff.1 hd).2
      rw [if_pos hp, hr]
      simp only [credit, Option.elim_some]
      omega
  | none =>
    have hp : p ∉ (t.step e).1 := by
      intro hp
      cases e with
      | note => cases hp
      | reply => cases hp
      | tick now interval =>
        obtain ⟨r, hr, hd⟩ := (t.mem_retryDueRepairs p now interval).1 hp
        rw [step, retryDueRepairs, HashMap.lookup_retainMut, hr, Option.bind_some,
          r.advance_of_due hd] at hl
        cases hl
    rw [if_neg hp, Nat.zero_add]
    exact Nat.zero_le _

theorem retries_add_credit_le {tr : List (RepairEvent P × List P)} {t : PendingRepairs P}
    (h : Traces step ∅ tr t) (p : P) :
    retriesTo p tr + credit (t.lookup p) ≤
      maxRepairAttempts * tr.countP fun x => x.1.notes p := by
  refine h.invariant (fun tr (t : PendingRepairs P) => retriesTo p tr + credit (t.lookup p) ≤
    maxRepairAttempts * tr.countP fun x => x.1.notes p) ?_ ?_
  · exact Nat.le_refl 0
  intro tr t e ih
  have hs := credit_step t e p
  rw [retries_append, retries_singleton, List.countP_append, List.countP_singleton, Nat.mul_add]
  dsimp only
  omega

/-- Over any run a peer is sent at most four comparisons for each time it was noted. An entry that
goes without a reply has had its four since the note that opened it, and the pass that drops it
sends nothing. -/
theorem retries_bounded {tr : List (RepairEvent P × List P)} {t : PendingRepairs P}
    (h : Traces step ∅ tr t) (p : P) :
    retriesTo p tr ≤ maxRepairAttempts * tr.countP (fun x => x.1.notes p) ∧
      ∀ e r, t.lookup p = some r → (t.step e).2.lookup p = none → e ≠ .reply p →
        (∃ now interval, e = .tick now interval) ∧ p ∉ (t.step e).1 ∧
          ∃ before noted wait since, tr = before ++ (.note p noted wait, []) :: since ∧
            Opens p before ∧ (∀ y ∈ since, y.1 ≠ .reply p) ∧
              retriesTo p since = maxRepairAttempts := by
  refine ⟨(Nat.le_add_right ..).trans (retries_add_credit_le h p), ?_⟩
  intro e r hr hgone he
  obtain ⟨htick, hp, ha⟩ := lookup_step_none hr hgone he
  have hep := episode h p r hr
  obtain ⟨before, noted, wait, since, htr, ho, hs, hn⟩ := hep.opened
  exact ⟨htick, hp, before, noted, wait, since, htr, ho, hs,
    hn.trans (Nat.le_antisymm hep.bounded ha)⟩

theorem retries_bounded_unanswered : ∃ tr t, Traces step (∅ : PendingRepairs Nat) tr t ∧
    retriesTo 7 tr = 4 ∧ (t.step (.tick 500 100)).2.lookup 7 = none ∧
      ∃ before noted wait since, tr = before ++ (.note 7 noted wait, []) :: since ∧
        Opens 7 before ∧ (∀ y ∈ since, y.1 ≠ .reply 7) ∧
          retriesTo 7 since = maxRepairAttempts := by
  have h := (((((@Traces.start _ _ _ step (∅ : PendingRepairs Nat)).snoc (.note 7 0 100)).snoc
    (.tick 100 100)).snoc (.tick 200 100)).snoc (.tick 300 100)).snoc (.tick 400 100)
  have hlast := (retries_bounded h 7).2 (.tick 500 100) ⟨500, 4⟩ (by decide) (by decide) nofun
  exact ⟨_, _, h, by decide, by decide, hlast.2.2⟩

end PendingRepairs

end Reconcile
