import Mathlib.Data.List.Induction
import Reconcile.Framing.Slot

namespace Reconcile
open Lib
set_option autoImplicit true

namespace Slot

variable {hash : Bytes → TransferId} {limits : ReassemblyLimits} {slot : Option Slot}
  {f : FragmentInput} {sent : List FragmentInput}

def replay (hash : Bytes → TransferId) (limits : ReassemblyLimits) (sent : List FragmentInput) :
    Option Slot :=
  sent.foldl (fun slot f => (offer hash limits slot f).1) none

theorem replay_concat (hash : Bytes → TransferId) (limits : ReassemblyLimits)
    (sent : List FragmentInput) (f : FragmentInput) :
    replay hash limits (sent ++ [f]) = (offer hash limits (replay hash limits sent) f).1 :=
  List.foldl_concat ..

structure From (sent : List FragmentInput) (slot : Slot) : Prop where
  spaced : Pieces.Spaced 0 slot.fragments slot.totalLen
  sent : ∀ p ∈ slot.fragments, ∃ g ∈ sent, p = (g.offset, g.bytes)

theorem From.place (h : ∀ s, slot = some s → s.From sent)
    (hslot : slot = none ∧ ps = [] ∨ slot = some ⟨f.totalLen, ps⟩) (hb : f.bytes ≠ [])
    (hend : f.offset + f.bytes.length ≤ f.totalLen)
    (hfree : Pieces.overlaps ps f.offset (f.offset + f.bytes.length) = false) :
    From (sent ++ [f]) ⟨f.totalLen, Pieces.place f.offset f.bytes ps⟩ := by
  have hps : From sent ⟨f.totalLen, ps⟩ := by
    rcases hslot with ⟨_, rfl⟩ | hs
    · exact ⟨Nat.zero_le _, nofun⟩
    · exact h _ hs
  have hpos := List.length_pos_iff.2 hb
  have hd : ∀ p ∈ ps, p.1 + p.2.length ≤ f.offset ∨ f.offset + f.bytes.length ≤ p.1 := by
    intro p hp
    by_contra hn
    have ho := (hps.spaced.overlaps_iff
      (show f.offset < f.offset + f.bytes.length by omega)).2 ⟨p, hp, by omega, by omega⟩
    rw [hfree] at ho
    cases ho
  have hne : ∀ p ∈ ps, p.1 ≠ f.offset := by
    intro p hp
    have hlen := hps.spaced.pos hp
    have hdp := hd p hp
    omega
  refine ⟨hps.spaced.place (Nat.zero_le _) hb hend hd, ?_⟩
  intro p hp
  rcases (Pieces.mem_place hne p).1 hp with rfl | hp
  · exact ⟨f, List.mem_append_right _ List.mem_cons_self, rfl⟩
  · obtain ⟨g, hg, he⟩ := hps.sent p hp
    exact ⟨g, List.mem_append_left _ hg, he⟩

theorem From.mono {sent' : List FragmentInput} {s : Slot} (h : s.From sent)
    (hs : ∀ g ∈ sent, g ∈ sent') : s.From sent' where
  spaced := h.spaced
  sent p hp := by
    obtain ⟨g, hg, he⟩ := h.sent p hp
    exact ⟨g, hs g hg, he⟩

theorem replay_from (hash : Bytes → TransferId) (limits : ReassemblyLimits)
    (sent : List FragmentInput) : ∀ s, replay hash limits sent = some s → s.From sent := by
  induction sent using List.reverseRecOn with
  | nil => exact nofun
  | append_singleton sent f ih =>
    intro s hs
    rw [replay_concat] at hs
    have ho := offer_offered hash limits (replay hash limits sent) f
    revert hs
    generalize offer hash limits (replay hash limits sent) f = out at ho
    intro hs
    cases ho with
    | kept _ => exact (ih s hs).mono fun g hg => List.mem_append_left _ hg
    | placed hslot hb hsize hend hfree _ _ =>
      unfold settle at hs
      split at hs
      · cases hs
        exact From.place ih hslot hb hend hfree
      · split at hs <;> cases hs

structure Yields (hash : Bytes → TransferId) (limits : ReassemblyLimits)
    (sent : List FragmentInput) (f : FragmentInput) (payload : Bytes) : Prop where
  hashes : hash payload = f.id
  length : payload.length = f.totalLen
  size : f.totalLen ≤ limits.maxLogicalMessageSize
  bytes : ∀ x, x < payload.length → ∃ g ∈ sent ++ [f],
    g.offset ≤ x ∧ x < g.offset + g.bytes.length ∧ payload[x]? = g.bytes[x - g.offset]?

/-- Disjoint pieces whose sizes add up to the length cover the message. -/
theorem offer_complete (h : (offer hash limits (replay hash limits sent) f).2 =
    .ok (.complete payload)) : Yields hash limits sent f payload := by
  have ho := offer_offered hash limits (replay hash limits sent) f
  revert h
  generalize offer hash limits (replay hash limits sent) f = out at ho
  intro h
  cases ho with
  | kept ho => exact absurd h (ho payload)
  | @placed ps hslot hb hsize hend hfree _ _ =>
    have hfrom := From.place (replay_from hash limits sent) hslot hb hend hfree
    unfold settle at h
    split at h
    · cases h
    next hbytes =>
    split at h
    · cases h
    next hid =>
    cases h
    have hfull : 0 + Pieces.size (Pieces.place f.offset f.bytes ps) = f.totalLen := by
      rw [Nat.zero_add]
      exact not_not.1 hbytes
    have hlength : (Pieces.join (Pieces.place f.offset f.bytes ps)).length = f.totalLen := by
      rw [Pieces.length_join]
      exact not_not.1 hbytes
    refine ⟨not_not.1 hid, hlength, hsize, ?_⟩
    intro x hx
    obtain ⟨p, hp, hlo, hhi⟩ := hfrom.spaced.covered_iff.1 hfull x (Nat.zero_le x)
      (hlength ▸ hx)
    obtain ⟨g, hg, he⟩ := hfrom.sent p hp
    refine ⟨g, hg, ?_⟩
    rw [he] at hlo hhi
    refine ⟨hlo, hhi, ?_⟩
    have hat := hfrom.spaced.getElem?_join hfull hp (k := x - p.1) (by
      rw [he]
      simp only at hlo hhi ⊢
      omega)
    rw [he] at hat
    simp only [Nat.sub_zero] at hat
    rw [← hat]
    congr 1
    simp only at hlo
    omega

end Slot

namespace Reassembler

variable {P : Type} [LinearOrder P] {hash : Bytes → TransferId} {limits : ReassemblyLimits}
  {r s : Reassembler P} {peer p : P} {id i : TransferId} {n : Nat} {sent : List FragmentInput}

def whileHeld (r : Reassembler P) (p : P) (i : TransferId) (sent : List FragmentInput) :
    List FragmentInput :=
  if (r.transfer p i).isSome then sent else []

/-- What peer `p` has sent for `i` since the transfer was opened, one event later. A frame first
expires what is idle, so a fragment can open the transfer anew. -/
def note (hash : Bytes → TransferId) (p : P) (i : TransferId) (r : Reassembler P)
    (sent : List FragmentInput) (e : ReassemblyEvent P) : List FragmentInput :=
  (r.step hash e).whileHeld p i <|
    match e with
    | .accept peer bytes now =>
      (r.expire now).1.whileHeld p i sent ++
        if peer = p then ((fragmentInput bytes).filter fun f => f.id = i).toList else []
    | _ => sent

def history (hash : Bytes → TransferId) (limits : ReassemblyLimits) (p : P) (i : TransferId)
    (events : List (ReassemblyEvent P)) : Reassembler P × List FragmentInput :=
  events.foldl (fun s e => (s.1.step hash e, note hash p i s.1 s.2 e)) (forIdentity limits, [])

theorem history_fst (hash : Bytes → TransferId) (limits : ReassemblyLimits) (p : P)
    (i : TransferId) (events : List (ReassemblyEvent P)) :
    (history hash limits p i events).1 = (forIdentity limits).run hash events := by
  unfold history run
  exact (List.foldl_hom Prod.fst fun _ _ => rfl).symm

/-- The transfer holds what the fragments on record make of an empty slot. -/
structure Recorded (hash : Bytes → TransferId) (p : P) (i : TransferId) (r : Reassembler P)
    (sent : List FragmentInput) : Prop where
  slot : (r.transfer p i).map Transfer.slot = Slot.replay hash r.limits sent
  ids : ∀ g ∈ sent, g.id = i

def KeepsSlot (p : P) (i : TransferId) (r s : Reassembler P) : Prop :=
  ∀ t, s.transfer p i = some t → (r.transfer p i).map Transfer.slot = some t.slot

theorem KeepsSlot.refl (p : P) (i : TransferId) (r : Reassembler P) : KeepsSlot p i r r := by
  intro t ht
  rw [ht, Option.map_some]

theorem KeepsSlot.trans {r' : Reassembler P} (h : KeepsSlot p i r s) (h' : KeepsSlot p i s r') :
    KeepsSlot p i r r' := by
  intro t ht
  obtain ⟨t', ht', he⟩ := Option.map_eq_some_iff.1 (h' t ht)
  rw [h t' ht', he]

theorem KeepsSlot.of_sub (h : ∀ t, s.transfer p i = some t → r.transfer p i = some t) :
    KeepsSlot p i r s := by
  intro t ht
  rw [h t ht, Option.map_some]

theorem keepsSlot_expire (p : P) (i : TransferId) (r : Reassembler P) (now : Nat) :
    KeepsSlot p i r (r.expire now).1 := by
  apply KeepsSlot.of_sub
  intro t ht
  rw [transfer_expire, Option.filter_eq_some_iff] at ht
  exact ht.1

theorem Handled.keepsSlot {f : FragmentInput} (h : Handled hash r peer f now out)
    (hne : ¬ (p = peer ∧ i = f.id)) : KeepsSlot p i r out.1 := by
  apply KeepsSlot.of_sub
  intro t ht
  cases h with
  | refused h e => exact h.transfer_sub ht
  | duplicate _ _ => rwa [transfer_put, if_neg hne] at ht
  | stored h _ _ _ _ =>
    rw [transfer_store, if_neg hne] at ht
    exact h.transfer_sub ht

theorem keepsSlot_put {t t' : Transfer} (hr : r.transfer peer id = some t)
    (he : t'.slot = t.slot) : KeepsSlot p i r (r.put peer id t' 0) := by
  intro t₁ ht
  rw [transfer_put] at ht
  split at ht
  · next hpi =>
    cases ht
    rw [hpi.1, hpi.2, hr, Option.map_some, he]
  · rw [ht, Option.map_some]

theorem keepsSlot_missingRangesIfDue (p : P) (i : TransferId) (r : Reassembler P) (peer : P)
    (id : TransferId) (now interval maxRanges : Nat) :
    KeepsSlot p i r (r.missingRangesIfDue peer id now interval maxRanges).1 := by
  unfold missingRangesIfDue
  split
  · exact .refl p i r
  split
  · exact .refl p i r
  next t ht =>
  split
  · split
    · exact .refl p i r
    · exact keepsSlot_put ht rfl
  · exact .refl p i r

theorem keepsSlot_pollLoop (p : P) (i : TransferId) (now maxRanges maxReports : Nat)
    (candidates : List (P × TransferId)) (r : Reassembler P) (reports : List (MissingRequest P)) :
    KeepsSlot p i r (pollLoop now maxRanges maxReports candidates r reports).1 := by
  induction candidates generalizing r reports with
  | nil => exact .refl p i r
  | cons k candidates ih =>
    rw [pollLoop]
    split
    · exact .refl p i r
    split
    · exact ih r reports
    next t ht =>
    split
    · exact ih r reports
    · have hmark : KeepsSlot p i r (r.put k.1 k.2 (t.requested now) 0) := keepsSlot_put ht rfl
      exact hmark.trans (ih _ _)

theorem keepsSlot_pollIdleMissing (p : P) (i : TransferId) (r : Reassembler P)
    (now minIdle interval maxRanges maxReports : Nat) :
    KeepsSlot p i r (r.pollIdleMissing now minIdle interval maxRanges maxReports).1 := by
  unfold pollIdleMissing
  split
  · exact .refl p i r
  split
  · exact .refl p i r
  · exact keepsSlot_pollLoop _ _ _ _ _ _ _ _

theorem Recorded.whileHeld (h : Recorded hash p i r sent) (hl : s.limits = r.limits)
    (hs : KeepsSlot p i r s) : Recorded hash p i s (s.whileHeld p i sent) := by
  unfold Reassembler.whileHeld
  cases ht : s.transfer p i with
  | none => exact ⟨by rw [ht]; rfl, nofun⟩
  | some t =>
    refine ⟨?_, h.ids⟩
    rw [ht, hl, Option.map_some, ← hs t ht]
    exact h.slot

theorem Recorded.acceptFragment (h : Recorded hash p i r sent) (hb : r.Balanced)
    (f : FragmentInput) (hf : f.id = i) (now : Nat) :
    Recorded hash p i (r.acceptFragment hash p f now).1
      ((r.acceptFragment hash p f now).1.whileHeld p i (sent ++ [f])) := by
  subst hf
  have hslot := congrArg Prod.fst (acceptFragment_offer hash hb p f now)
  rw [h.slot, ← Slot.replay_concat] at hslot
  unfold Reassembler.whileHeld
  cases ht : (r.acceptFragment hash p f now).1.transfer p f.id with
  | none => exact ⟨by rw [ht]; rfl, nofun⟩
  | some t =>
    refine ⟨?_, ?_⟩
    · rw [(acceptFragment_accepted hash r p f now).limits]
      exact hslot
    · intro g hg
      rcases List.mem_append.1 hg with hg | hg
      · exact h.ids g hg
      · rw [List.mem_singleton.1 hg]

theorem Recorded.accept (h : Recorded hash p i r sent) (hr : r.Accounted) (peer : P)
    (bytes : Bytes) (now : Nat) :
    Recorded hash p i (r.step hash (.accept peer bytes now))
      (note hash p i r sent (.accept peer bytes now)) := by
  have hexpire := h.whileHeld (limits_expire r now) (keepsSlot_expire p i r now)
  unfold note
  simp only [step]
  rw [accept_state]
  cases hf : fragmentInput bytes with
  | none =>
    simp only [Option.elim_none, Option.filter_none, Option.toList_none, ite_self, List.append_nil]
    exact hexpire.whileHeld rfl (.refl p i _)
  | some f =>
    simp only [Option.elim_some]
    by_cases hown : peer = p ∧ f.id = i
    · rw [if_pos hown.1, Option.filter_some, if_pos (decide_eq_true hown.2), Option.toList_some,
        hown.1]
      exact hexpire.acceptFragment (hr.expire now).balanced f hown.2 now
    · have hother : ((if peer = p then ((some f).filter fun f => f.id = i).toList else []) :
          List FragmentInput) = [] := by
        split
        · next hp =>
          rw [Option.filter_some, if_neg fun hi => hown ⟨hp, of_decide_eq_true hi⟩,
            Option.toList_none]
        · rfl
      rw [hother, List.append_nil]
      have hhandled := acceptFragment_handled hash (r.expire now).1 peer f now
      exact hexpire.whileHeld hhandled.accepted.limits
        (hhandled.keepsSlot fun he => hown ⟨he.1.symm, he.2.symm⟩)

theorem Recorded.step (h : Recorded hash p i r sent) (hr : r.Accounted)
    (e : ReassemblyEvent P) : Recorded hash p i (r.step hash e) (note hash p i r sent e) := by
  cases e with
  | accept peer bytes now => exact h.accept hr peer bytes now
  | expire now => exact h.whileHeld (limits_expire r now) (keepsSlot_expire p i r now)
  | missing peer id now interval maxRanges =>
    exact h.whileHeld (limits_missingRangesIfDue r _ _ _ _ _)
      (keepsSlot_missingRangesIfDue p i r _ _ _ _ _)
  | poll now minIdle interval maxRanges maxReports =>
    exact h.whileHeld (limits_pollIdleMissing r _ _ _ _ _) (keepsSlot_pollIdleMissing p i r _ _ _ _ _)

theorem recorded_history (hash : Bytes → TransferId) (limits : ReassemblyLimits) (p : P)
    (i : TransferId) (events : List (ReassemblyEvent P)) :
    Recorded hash p i (history hash limits p i events).1 (history hash limits p i events).2 := by
  have h : (history hash limits p i events).1.Accounted ∧
      Recorded hash p i (history hash limits p i events).1 (history hash limits p i events).2 := by
    refine List.foldlRecOn (motive := fun s : Reassembler P × List FragmentInput =>
      s.1.Accounted ∧ Recorded hash p i s.1 s.2) events _ ?_ ?_
    · exact ⟨accounted_forIdentity limits, rfl, nofun⟩
    · intro s hs e _
      exact ⟨hs.1.step e, hs.2.step hs.1 e⟩
  exact h.2

def sentSince (hash : Bytes → TransferId) (limits : ReassemblyLimits) (p : P) (i : TransferId)
    (events : List (ReassemblyEvent P)) (now : Nat) : List FragmentInput :=
  (((forIdentity limits).run hash events).expire now).1.whileHeld p i
    (history hash limits p i events).2

/-- A payload that is returned is the one its peer's own fragments give, and each of its bytes was
sent by that peer, at its place, for the current transfer. -/
structure Delivered (hash : Bytes → TransferId) (limits : ReassemblyLimits)
    (own : List FragmentInput) (f : FragmentInput) (payload : Bytes) : Prop where
  hashes : hash payload = f.id
  length : payload.length = f.totalLen
  size : f.totalLen ≤ limits.maxLogicalMessageSize
  bytes : ∀ x, x < payload.length → ∃ g ∈ own ++ [f], g.id = f.id ∧
    g.offset ≤ x ∧ x < g.offset + g.bytes.length ∧ payload[x]? = g.bytes[x - g.offset]?
  alone : (Slot.offer hash limits (Slot.replay hash limits own) f).2 = .ok (.complete payload)

/-- Whatever else is received, from any peers, a completed transfer has its peer's bytes and no
others. -/
theorem completion_sound (hash : Bytes → TransferId) (limits : ReassemblyLimits)
    (events : List (ReassemblyEvent P)) (peer : P) (bytes : Bytes) (now : Nat) (f : FragmentInput)
    (payload : Bytes) (hf : fragmentInput bytes = some f)
    (hc : (((forIdentity limits).run hash events).accept hash peer bytes now).2.outcome =
      .ok (.complete payload)) :
    Delivered hash limits (sentSince hash limits peer f.id events now) f payload := by
  have hr : ((forIdentity limits : Reassembler P).run hash events).Accounted :=
    (accounted_forIdentity limits).run events
  have hlimits : (((forIdentity limits : Reassembler P).run hash events).expire now).1.limits =
      limits :=
    (limits_expire _ now).trans (limits_run hash _ events)
  -- expiry comes first, and the record is that of the transfer that survives it
  have hrec := recorded_history hash limits peer f.id events
  rw [history_fst] at hrec
  have hsince := hrec.whileHeld (limits_expire _ now) (keepsSlot_expire peer f.id _ now)
  have hanswer := congrArg Prod.snd (acceptFragment_offer hash (hr.expire now).balanced peer f now)
  rw [hsince.slot, hlimits, ← accept_outcome hf, hc] at hanswer
  have hyield := Slot.offer_complete hanswer.symm
  refine ⟨hyield.hashes, hyield.length, hyield.size, ?_, hanswer.symm⟩
  intro x hx
  obtain ⟨g, hg, hat⟩ := hyield.bytes x hx
  refine ⟨g, hg, ?_, hat⟩
  rcases List.mem_append.1 hg with hg | hg
  · exact hsince.ids g hg
  · rw [List.mem_singleton.1 hg]

/-- A message of two fragments, with another peer's fragment of the same id in between. -/
theorem completion_sound_interleaved :
    let hash : Bytes → TransferId := fun _ => ⟨List.replicate 32 0, List.length_replicate⟩
    let frame (o : Nat) (b : UInt8) : Bytes := fragmentFrame (hash []) 2 o [b]
    let events : List (ReassemblyEvent Nat) :=
      [.accept 1 (frame 0 5) 0, .accept 2 (frame 0 9) 0, .missing 1 (hash []) 0 0 1]
    let limits : ReassemblyLimits := ⟨2, 2, 1, 2, 4, 10⟩
    sentSince hash limits 1 (hash []) events 1 = [⟨hash [], 2, 0, [5]⟩] ∧
      Delivered hash limits (sentSince hash limits 1 (hash []) events 1) ⟨hash [], 2, 1, [6]⟩
        [5, 6] := by
  intro hash frame events limits
  refine ⟨by decide +kernel, ?_⟩
  exact completion_sound hash limits events 1 (frame 1 6) 1 ⟨hash [], 2, 1, [6]⟩ [5, 6]
    (by decide +kernel) (by decide +kernel)

end Reassembler

end Reconcile
