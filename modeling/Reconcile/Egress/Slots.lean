import Reconcile.Egress

namespace Reconcile
open Lib
set_option autoImplicit true

/-- The atomic steps of the fallible calls, the broadcasts of the other writers, the ends of the
send tasks, and any other change of the replica. -/
inductive EgressEvent (K V P T : Type) where
  | tryInsert (key : K) (value : V) (now : T)
  | tryUpdate (key : K) (callback : V → V)
  | claim (call : Nat)
  | reject (call : Nat)
  | lock (call : Nat) (now : T)
  | drop (call : Nat)
  | spawn (call : Nat)
  | panic (call : Nat)
  | broadcast (messages : List (K × Entry T V))
  | finish (task : Nat)
  | other (replica : Replica K V P T)

variable {K V P T : Type}

namespace Egress

def setCall (s : Egress K V P T) (i : Nat) (call : FallibleCall K V T) : Egress K V P T :=
  { s with calls := s.calls.set i call }

def claimFor (cfg : EgressConfig V) (s : Egress K V P T) (i : Nat) (claimed : FallibleCall K V T) :
    Egress K V P T :=
  match s.tryClaimBroadcastSlot cfg with
  | some s' => s'.setCall i claimed
  | none => s.setCall i .refused

def step [DecidableEq K] [DecidableEq P] (cfg : EgressConfig V) (s : Egress K V P T) :
    EgressEvent K V P T → Option (Egress K V P T)
  | .tryInsert key value now =>
    let call : FallibleCall K V T :=
      match cfg.checkValueSize value with
      | .error err => .returned (.error (.tooLarge err))
      | .ok () => .inserting key (.present now value)
    some { s with calls := s.calls ++ [call] }
  | .tryUpdate key callback => some { s with calls := s.calls ++ [.updating key callback] }
  | .claim i =>
    match s.calls[i]? with
    | some (.inserting key entry) => some (s.claimFor cfg i (.insertClaimed key entry))
    | some (.updating key callback) => some (s.claimFor cfg i (.updateClaimed key callback))
    | _ => none
  | .reject i =>
    match s.calls[i]? with
    | some .refused => some (s.setCall i (.returned (.error (s.rejection cfg))))
    | _ => none
  | .lock i now =>
    match s.calls[i]? with
    | some (.insertClaimed key entry) =>
      let inserted := s.replica.justInsert key entry
      some ({ s with replica := inserted.2 }.setCall i
        (.applied key entry (.previous (inserted.1.bind Entry.value))))
    | some (.updateClaimed key callback) =>
      let mutated := s.replica.mutateLiveChecked key callback cfg.checkValueSize now
      some ({ s with replica := mutated.2 }.setCall i
        (match mutated.1 with
          | .ok (some entry) => .applied key entry (.updated true)
          | .ok none => .dropping (.ok (.updated false))
          | .error err => .dropping (.error (.tooLarge err))))
    | _ => none
  | .drop i =>
    match s.calls[i]? with
    | some (.dropping result) => some (s.dropGuard.setCall i (.returned result))
    | _ => none
  | .spawn i =>
    match s.calls[i]? with
    | some (.applied key entry outcome) =>
      some ((s.spawnBroadcast [(key, entry)]).setCall i (.returned (.ok outcome)))
    | _ => none
  | .panic i =>
    -- A callback unwinds through the locked section before anything is stored.
    match s.calls[i]? with
    | some (.updateClaimed _ _) => some (s.dropGuard.setCall i .panicked)
    | _ => none
  | .broadcast messages => some (s.broadcast cfg messages)
  | .finish task =>
    if task < s.tasks.length then some { s.dropGuard with tasks := s.tasks.eraseIdx task }
    else none
  | .other replica => some { s with replica := replica }

def liveSlots (s : Egress K V P T) : Nat :=
  s.tasks.length + s.calls.countP FallibleCall.holdsSlot

end Egress

def EgressEvent.caller (s : Egress K V P T) : EgressEvent K V P T → Option Nat
  | .tryInsert _ _ _ | .tryUpdate _ _ => some s.calls.length
  | .claim i | .reject i | .lock i _ | .drop i | .spawn i | .panic i => some i
  | .broadcast _ | .finish _ | .other _ => none

def FallibleCall.succeeded : FallibleCall K V T → Bool
  | .applied _ _ _ | .returned (.ok _) => true
  | _ => false

def FallibleCall.rejectedWith (err : WriteRejected) : FallibleCall K V T → Bool
  | .returned (.error err') => err' == err
  | _ => false

theorem FallibleCall.eq_of_rejectedWith {call : Option (FallibleCall K V T)} {err : WriteRejected}
    (h : call.any (·.rejectedWith err) = true) : call = some (.returned (.error err)) := by
  obtain ⟨c, rfl, hc⟩ := (Option.any_eq_true _ _).1 h
  unfold rejectedWith at hc
  split at hc
  · rw [eq_of_beq hc]
  · cases hc

theorem Replica.mutateLiveChecked_kept [DecidableEq K] [DecidableEq P] {r : Replica K V P T}
    {validate : V → Except ε Unit}
    (h : ∀ e, (r.mutateLiveChecked k callback validate now).1 ≠ .ok (some e)) :
    (r.mutateLiveChecked k callback validate now).2 = r := by
  rw [mutateLiveChecked] at h ⊢
  cases hv : (r.map.lookup k).bind Entry.value with
  | none => rfl
  | some v =>
    rw [hv] at h
    cases hok : validate (callback v) with
    | error err => simp only [hok]
    | ok u =>
      simp only [hok] at h
      exact absurd rfl (h _)

namespace Egress

variable {cfg : EgressConfig V} {s s' : Egress K V P T}

/-- The counter counts the guards, within the budget. -/
structure Slotted (cfg : EgressConfig V) (s : Egress K V P T) : Prop where
  counted : s.broadcastsInFlight = s.liveSlots
  within : s.broadcastsInFlight ≤ cfg.maxConcurrentBroadcasts

theorem countP_setCall (h : s.calls[i]? = some old) (new : FallibleCall K V T) :
    (s.setCall i new).calls.countP FallibleCall.holdsSlot + old.holdsSlot.toNat =
      s.calls.countP FallibleCall.holdsSlot + new.holdsSlot.toNat := by
  obtain ⟨hi, rfl⟩ := List.getElem?_eq_some_iff.1 h
  have hc := List.countP_set (p := FallibleCall.holdsSlot) (a := new) hi
  have hpos : s.calls[i].holdsSlot = true → 0 < s.calls.countP FallibleCall.holdsSlot :=
    fun hp => List.countP_pos_iff.2 ⟨_, List.getElem_mem hi, hp⟩
  simp only [setCall, hc]
  cases ho : s.calls[i].holdsSlot with
  | false => cases new.holdsSlot <;> simp
  | true =>
    have hle := hpos ho
    cases new.holdsSlot <;> simp <;> omega

theorem Slotted.setCall (h : s.Slotted cfg) {old new : FallibleCall K V T}
    (hi : s.calls[i]? = some old) (hs : new.holdsSlot = old.holdsSlot) :
    (s.setCall i new).Slotted cfg := by
  have hc := countP_setCall hi new
  rw [hs] at hc
  have hc := Nat.add_right_cancel hc
  refine ⟨?_, h.within⟩
  rw [liveSlots, hc]
  exact h.counted

theorem Slotted.claimFor (h : s.Slotted cfg) {old claimed : FallibleCall K V T}
    (hi : s.calls[i]? = some old) (ho : old.holdsSlot = false) (hc : claimed.holdsSlot = true) :
    (s.claimFor cfg i claimed).Slotted cfg := by
  rw [Egress.claimFor, tryClaimBroadcastSlot]
  split
  · next s' hs =>
    split at hs
    · next hlt =>
      cases hs
      have hcount := countP_setCall hi claimed
      rw [ho, hc] at hcount
      refine ⟨?_, hlt⟩
      have hold := h.counted
      simp only [liveSlots, Egress.setCall, Bool.toNat_false, Bool.toNat_true] at hold hcount ⊢
      omega
    · cases hs
  · exact h.setCall hi ho.symm

theorem dropGuard_of_pos (h : s.Slotted cfg) (hpos : 0 < s.broadcastsInFlight) :
    s.dropGuard = { s with broadcastsInFlight := s.broadcastsInFlight - 1 } := by
  have hle := Nat.le_trans h.within cfg.max_le
  have hn : (s.broadcastsInFlight + u64Max) % (u64Max + 1) = s.broadcastsInFlight - 1 := by
    have he : s.broadcastsInFlight + u64Max = s.broadcastsInFlight - 1 + (u64Max + 1) := by omega
    rw [he, Nat.add_mod_right, Nat.mod_eq_of_lt (by omega)]
  rw [dropGuard, hn]

theorem Slotted.release (h : s.Slotted cfg) {old new : FallibleCall K V T}
    (hi : s.calls[i]? = some old) (ho : old.holdsSlot = true) (hn : new.holdsSlot = false) :
    (s.dropGuard.setCall i new).Slotted cfg := by
  have hcount := countP_setCall hi new
  have hold := h.counted
  have hw := h.within
  rw [ho, hn] at hcount
  simp only [liveSlots, Egress.setCall, Bool.toNat_false, Bool.toNat_true] at hold hcount
  rw [dropGuard_of_pos h (by omega)]
  refine ⟨?_, ?_⟩
  · simp only [liveSlots, Egress.setCall]
    omega
  · exact Nat.le_trans (Nat.sub_le _ _) hw

theorem Slotted.spawn (h : s.Slotted cfg) {old new : FallibleCall K V T}
    (hi : s.calls[i]? = some old) (ho : old.holdsSlot = true) (hn : new.holdsSlot = false)
    (messages : List (K × Entry T V)) :
    ((s.spawnBroadcast messages).setCall i new).Slotted cfg := by
  have hcount := countP_setCall hi new
  have hold := h.counted
  rw [ho, hn] at hcount
  refine ⟨?_, h.within⟩
  simp only [liveSlots, Egress.setCall, spawnBroadcast, Bool.toNat_false, Bool.toNat_true,
    List.length_append, List.length_singleton] at hold hcount ⊢
  omega

theorem Slotted.broadcast (h : s.Slotted cfg) (messages : List (K × Entry T V)) :
    (s.broadcast cfg messages).Slotted cfg := by
  rw [Egress.broadcast, tryClaimBroadcastSlot]
  split
  · next s' hs =>
    split at hs
    · next hlt =>
      cases hs
      refine ⟨?_, hlt⟩
      have hold := h.counted
      simp only [liveSlots, spawnBroadcast, List.length_append, List.length_singleton] at hold ⊢
      omega
    · cases hs
  · exact h

theorem Slotted.replica (h : s.Slotted cfg) (replica : Replica K V P T) :
    { s with replica := replica }.Slotted cfg :=
  ⟨h.counted, h.within⟩

variable [DecidableEq K] [DecidableEq P]

theorem Slotted.step {e : EgressEvent K V P T} (h : s.Slotted cfg) (hs : s.step cfg e = some s') :
    s'.Slotted cfg := by
  have hold := h.counted
  cases e with
  | tryInsert key value now =>
    cases hs
    refine ⟨?_, h.within⟩
    simp only [liveSlots, List.countP_append] at hold ⊢
    split <;> exact hold
  | tryUpdate key callback =>
    cases hs
    refine ⟨?_, h.within⟩
    simp only [liveSlots, List.countP_append] at hold ⊢
    exact hold
  | claim i =>
    simp only [Egress.step] at hs
    split at hs
    · next hi =>
      cases hs
      exact h.claimFor hi rfl rfl
    · next hi =>
      cases hs
      exact h.claimFor hi rfl rfl
    · cases hs
  | reject i =>
    simp only [Egress.step] at hs
    split at hs
    · next hi =>
      cases hs
      exact h.setCall hi rfl
    · cases hs
  | lock i now =>
    simp only [Egress.step] at hs
    split at hs
    · next hi =>
      cases hs
      exact (h.replica _).setCall hi rfl
    · next hi =>
      cases hs
      refine (h.replica _).setCall hi ?_
      split <;> rfl
    · cases hs
  | drop i =>
    simp only [Egress.step] at hs
    split at hs
    · next hi =>
      cases hs
      exact h.release hi rfl rfl
    · cases hs
  | spawn i =>
    simp only [Egress.step] at hs
    split at hs
    · next hi =>
      cases hs
      exact h.spawn hi rfl rfl _
    · cases hs
  | panic i =>
    simp only [Egress.step] at hs
    split at hs
    · next hi =>
      cases hs
      exact h.release hi rfl rfl
    · cases hs
  | broadcast messages =>
    cases hs
    exact h.broadcast messages
  | finish task =>
    simp only [Egress.step] at hs
    split at hs
    · next ht =>
      cases hs
      simp only [liveSlots] at hold
      rw [dropGuard_of_pos h (by omega)]
      refine ⟨?_, Nat.le_trans (Nat.sub_le _ _) h.within⟩
      simp only [liveSlots, List.length_eraseIdx_of_lt ht]
      omega
    · cases hs
  | other replica =>
    cases hs
    exact h.replica replica

omit [DecidableEq K] [DecidableEq P] in
theorem claimFor_calls (cfg : EgressConfig V) (s : Egress K V P T) (i : Nat)
    (claimed : FallibleCall K V T) : ∃ new, (s.claimFor cfg i claimed).calls = s.calls.set i new ∧
      (s.claimFor cfg i claimed).replica = s.replica := by
  rw [claimFor, tryClaimBroadcastSlot]
  split
  · next hs =>
    split at hs <;> cases hs
    exact ⟨claimed, rfl, rfl⟩
  · exact ⟨.refused, rfl, rfl⟩

omit [DecidableEq K] [DecidableEq P] in
theorem dropGuard_eq (s : Egress K V P T) : ∃ n, s.dropGuard = { s with broadcastsInFlight := n } :=
  ⟨_, rfl⟩

/-- What a step does to the calls and, if a call takes it, to the replica: only a call that from
then on succeeds changes anything. -/
theorem step_cases {e : EgressEvent K V P T} (hs : s.step cfg e = some s') :
    (∃ call, e.caller s = some s.calls.length ∧ s'.calls = s.calls ++ [call] ∧
      s'.replica = s.replica) ∨
    (∃ i old new, e.caller s = some i ∧ s.calls[i]? = some old ∧ s'.calls = s.calls.set i new ∧
      (old.succeeded = true → new.succeeded = true) ∧
      (new.succeeded = true ∨ s'.replica = s.replica)) ∨
    e.caller s = none ∧ s'.calls = s.calls := by
  cases e with
  | tryInsert key value now =>
    cases hs
    exact .inl ⟨_, rfl, rfl, rfl⟩
  | tryUpdate key callback =>
    cases hs
    exact .inl ⟨_, rfl, rfl, rfl⟩
  | claim i =>
    simp only [step] at hs
    split at hs
    · next key entry hi =>
      cases hs
      obtain ⟨new, hc, hr⟩ := s.claimFor_calls cfg i (.insertClaimed key entry)
      exact .inr (.inl ⟨i, _, new, rfl, hi, hc, nofun, .inr hr⟩)
    · next key callback hi =>
      cases hs
      obtain ⟨new, hc, hr⟩ := s.claimFor_calls cfg i (.updateClaimed key callback)
      exact .inr (.inl ⟨i, _, new, rfl, hi, hc, nofun, .inr hr⟩)
    · cases hs
  | reject i =>
    simp only [step] at hs
    split at hs
    · next hi =>
      cases hs
      exact .inr (.inl ⟨i, _, _, rfl, hi, rfl, nofun, .inr rfl⟩)
    · cases hs
  | lock i now =>
    simp only [step] at hs
    split at hs
    · next hi =>
      cases hs
      exact .inr (.inl ⟨i, _, _, rfl, hi, rfl, nofun, .inl rfl⟩)
    · next key callback hi =>
      cases hs
      refine .inr (.inl ⟨i, _, _, rfl, hi, rfl, nofun, ?_⟩)
      split
      · exact .inl rfl
      · next hm => exact .inr (Replica.mutateLiveChecked_kept (by rw [hm]; exact nofun))
      · next hm => exact .inr (Replica.mutateLiveChecked_kept (by rw [hm]; exact nofun))
    · cases hs
  | drop i =>
    obtain ⟨n, hd⟩ := s.dropGuard_eq
    simp only [step, hd] at hs
    split at hs
    · next hi =>
      cases hs
      exact .inr (.inl ⟨i, _, _, rfl, hi, rfl, nofun, .inr rfl⟩)
    · cases hs
  | spawn i =>
    simp only [step] at hs
    split at hs
    · next hi =>
      cases hs
      exact .inr (.inl ⟨i, _, _, rfl, hi, rfl, fun _ => rfl, .inr rfl⟩)
    · cases hs
  | panic i =>
    obtain ⟨n, hd⟩ := s.dropGuard_eq
    simp only [step, hd] at hs
    split at hs
    · next hi =>
      cases hs
      exact .inr (.inl ⟨i, _, _, rfl, hi, rfl, nofun, .inr rfl⟩)
    · cases hs
  | broadcast messages =>
    cases hs
    refine .inr (.inr ⟨rfl, ?_⟩)
    rw [Egress.broadcast, tryClaimBroadcastSlot]
    split
    · next hs =>
      split at hs <;> cases hs
      rfl
    · rfl
  | finish task =>
    obtain ⟨n, hd⟩ := s.dropGuard_eq
    simp only [step, hd] at hs
    split at hs
    · cases hs
      exact .inr (.inr ⟨rfl, rfl⟩)
    · cases hs
  | other replica =>
    cases hs
    exact .inr (.inr ⟨rfl, rfl⟩)

theorem succeeded_step {e : EgressEvent K V P T} {i : Nat} (hs : s.step cfg e = some s')
    (h : s.calls[i]?.any FallibleCall.succeeded = true) :
    s'.calls[i]?.any FallibleCall.succeeded = true := by
  rcases step_cases hs with ⟨call, -, hc, -⟩ | ⟨j, old, new, -, hj, hc, hn, -⟩ | ⟨-, hc⟩
  · obtain ⟨c, hci, hsucc⟩ := (Option.any_eq_true _ _).1 h
    have hi := (List.getElem?_eq_some_iff.1 hci).1
    rw [hc, List.getElem?_append_left hi]
    exact h
  · rw [hc, List.getElem?_set]
    split
    · next hij =>
      subst hij
      rw [hj] at h
      rw [if_pos (List.getElem?_eq_some_iff.1 hj).1]
      exact hn h
    · exact h
  · rw [hc]
    exact h

theorem replica_step {e : EgressEvent K V P T} (hs : s.step cfg e = some s')
    (hi : e.caller s = some i) :
    s'.replica = s.replica ∨ s'.calls[i]?.any FallibleCall.succeeded = true := by
  rcases step_cases hs with ⟨call, -, -, hr⟩ | ⟨j, old, new, hj, ho, hc, -, hn⟩ | ⟨hn, -⟩
  · exact .inl hr
  · rcases hn with hn | hr
    · rw [hi] at hj
      cases hj
      rw [hc, List.getElem?_set_self (List.getElem?_eq_some_iff.1 ho).1]
      exact .inr hn
    · exact .inl hr
  · rw [hn] at hi
    cases hi

/-- At every moment of every run the counter is the number of guards in existence, within the
budget, and no step of a call that returns an error has changed the replica: its map and projection,
its tombstone index, its journal and its change counter are those the step found. -/
theorem fallible_writes_all_or_nothing {r₀ : Replica K V P T} {es : List (EgressEvent K V P T)}
    (hr : Runs (step cfg) { replica := r₀ } es s) :
    (s.broadcastsInFlight = s.liveSlots ∧ s.broadcastsInFlight ≤ cfg.maxConcurrentBroadcasts) ∧
    ∀ i err, s.calls[i]? = some (.returned (.error err)) →
      EachStep (step cfg) (fun t e t' => e.caller t = some i → t'.replica = t.replica)
        { replica := r₀ } es := by
  have hslots : s.Slotted cfg := hr.invariant (fun _ s => s.Slotted cfg)
    ⟨rfl, Nat.zero_le _⟩ fun _ _ _ _ h hs => h.step hs
  refine ⟨⟨hslots.counted, hslots.within⟩, ?_⟩
  rintro i err hi es₁ e es₂ t t' rfl ht hs hcall
  rcases replica_step hs hcall with h | h
  · exact h
  · -- the call would still count as a success at the end
    have hend : s.calls[i]?.any FallibleCall.succeeded = true :=
      (hr.after ht hs).invariant (fun _ s => s.calls[i]?.any FallibleCall.succeeded = true) h
        fun _ _ _ _ h hs => succeeded_step hs h
    rw [hi] at hend
    cases hend

/-- Two inserts race for one slot: the second is refused while the first is between its claim and
its locked section, and an update that would store too large a value gives its slot back. -/
def racingWrites : List (EgressEvent Nat Nat Nat Nat) :=
  [.tryInsert 1 10 5, .tryInsert 2 20 6, .claim 0, .claim 1, .lock 0 0, .reject 1, .spawn 0,
    .finish 0, .tryUpdate 1 (· + 1000), .claim 2, .lock 2 7, .drop 2]

theorem fallible_writes_all_or_nothing_racing :
    ∃ s : Egress Nat Nat Nat Nat, Runs (step oneSlot) {} racingWrites s ∧
      s.replica.map.lookup 1 = some (.present 5 10) ∧
      s.calls[1]? = some (.returned (.error (.backpressure ⟨1, 1⟩))) ∧
      s.calls[2]? = some (.returned (.error (.tooLarge ⟨1010, 100⟩))) ∧
      s.broadcastsInFlight = s.liveSlots ∧
      EachStep (step oneSlot) (fun t e t' => e.caller t = some 2 → t'.replica = t.replica) {}
        racingWrites := by
  have hr : (runAll (step oneSlot) {} racingWrites).any (fun s =>
      s.replica.map.lookup 1 == some (.present 5 10) &&
        s.calls[1]?.any (·.rejectedWith (.backpressure ⟨1, 1⟩)) &&
        s.calls[2]?.any (·.rejectedWith (.tooLarge ⟨1010, 100⟩))) = true := by decide +kernel
  obtain ⟨s, hs, hp⟩ := (Option.any_eq_true _ _).1 hr
  simp only [Bool.and_eq_true, beq_iff_eq] at hp
  obtain ⟨⟨hm, h₁⟩, h₂⟩ := hp
  have hruns := runs_of_runAll hs
  have hall := fallible_writes_all_or_nothing hruns
  have h₂ := FallibleCall.eq_of_rejectedWith h₂
  exact ⟨s, hruns, hm, FallibleCall.eq_of_rejectedWith h₁, h₂, hall.1.1, hall.2 2 _ h₂⟩

/-- Run by itself a `try_insert` takes these steps to the result and the state of the whole call. -/
theorem tryInsert_runs (cfg : EgressConfig V) (s : Egress K V P T) (key : K) (value : V) (now : T) :
    ∃ es, Runs (step cfg) s es { (s.tryInsert cfg key value now).2 with
      calls := s.calls ++ [.returned ((s.tryInsert cfg key value now).1.map .previous)] } := by
  rw [tryInsert]
  cases hv : cfg.checkValueSize value with
  | error err =>
    refine ⟨[.tryInsert key value now], runs_of_runAll ?_⟩
    simp only [runAll, step, hv, Except.map]
  | ok u =>
    by_cases hlt : s.broadcastsInFlight < cfg.maxConcurrentBroadcasts
    · refine ⟨[.tryInsert key value now, .claim s.calls.length, .lock s.calls.length now,
        .spawn s.calls.length], runs_of_runAll ?_⟩
      simp [runAll, step, hv, claimFor, tryClaimBroadcastSlot, hlt, spawnBroadcast, setCall,
        Except.map]
    · refine ⟨[.tryInsert key value now, .claim s.calls.length, .reject s.calls.length],
        runs_of_runAll ?_⟩
      simp [runAll, step, hv, claimFor, tryClaimBroadcastSlot, hlt, setCall, rejection, Except.map]

theorem tryUpdate_runs (cfg : EgressConfig V) (s : Egress K V P T) (k : K) (f : V → V) (now : T) :
    ∃ es, Runs (step cfg) s es { (s.tryUpdate cfg k f now).2 with
      calls := s.calls ++ [.returned ((s.tryUpdate cfg k f now).1.map .updated)] } := by
  rw [tryUpdate, tryClaimBroadcastSlot]
  by_cases hlt : s.broadcastsInFlight < cfg.maxConcurrentBroadcasts
  · rw [if_pos hlt]
    rcases hm : s.replica.mutateLiveChecked k f cfg.checkValueSize now with ⟨err | _ | value, replica⟩
    · refine ⟨[.tryUpdate k f, .claim s.calls.length, .lock s.calls.length now,
        .drop s.calls.length], runs_of_runAll ?_⟩
      simp [runAll, step, claimFor, tryClaimBroadcastSlot, hlt, hm, dropGuard, setCall, Except.map]
    · refine ⟨[.tryUpdate k f, .claim s.calls.length, .lock s.calls.length now,
        .drop s.calls.length], runs_of_runAll ?_⟩
      simp [runAll, step, claimFor, tryClaimBroadcastSlot, hlt, hm, dropGuard, setCall, Except.map]
    · refine ⟨[.tryUpdate k f, .claim s.calls.length, .lock s.calls.length now,
        .spawn s.calls.length], runs_of_runAll ?_⟩
      simp [runAll, step, claimFor, tryClaimBroadcastSlot, hlt, hm, spawnBroadcast, setCall,
        Except.map]
  · rw [if_neg hlt]
    refine ⟨[.tryUpdate k f, .claim s.calls.length, .reject s.calls.length], runs_of_runAll ?_⟩
    simp [runAll, step, claimFor, tryClaimBroadcastSlot, hlt, setCall, rejection, Except.map]

end Egress

end Reconcile
