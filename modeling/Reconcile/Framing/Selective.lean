import Mathlib.Data.List.Induction
import Reconcile.Framing.Completeness
import Reconcile.Framing.RecoveryBook

namespace Reconcile
open Lib
set_option autoImplicit true

theorem reportValid_true {ranges : List (Nat × Nat)} (hstart : ∀ g ∈ ranges, n ≤ g.1)
    (hrange : ∀ g ∈ ranges, 0 < g.2 ∧ g.1 + g.2 ≤ length)
    (hsort : ranges.Pairwise fun g g' => g.1 + g.2 < g'.1) :
    reportValid length n ranges = true := by
  induction ranges generalizing n with
  | nil => rfl
  | cons g ranges ih =>
    obtain ⟨hhead, htail⟩ := List.pairwise_cons.1 hsort
    obtain ⟨hpos, hend⟩ := hrange g List.mem_cons_self
    have hn := hstart g List.mem_cons_self
    rw [reportValid, if_neg (by omega)]
    exact ih (fun g' hg' => Nat.le_of_lt (hhead g' hg'))
      (fun g' hg' => hrange g' (List.mem_cons_of_mem g hg')) htail

theorem sendFragments_all {id : TransferId} {ps : List (Nat × Bytes)} (hlen : totalLen < 2 ^ 32)
    (h : ∀ p ∈ ps, p.1 < 2 ^ 32) (hsend : ∀ frame, send frame = true) :
    sendFragments id totalLen send ps =
      (ps.map fun p => fragmentFrame id totalLen p.1 p.2, true) := by
  induction ps with
  | nil => rfl
  | cons p ps ih =>
    have hp := h p List.mem_cons_self
    rw [sendFragments, writeFragment, if_neg (by omega), if_neg (by omega)]
    simp only [hsend, if_true, ih fun q hq => h q (List.mem_cons_of_mem p hq), List.map_cons]

def inRanges (c : Nat) (payload : Bytes) (ranges : List (Nat × Nat)) : List (Nat × Bytes) :=
  (originals c payload).filter fun p => ∃ g ∈ ranges, g.1 ≤ p.1 ∧ p.1 < g.1 + g.2

theorem mem_inRanges (c : Nat) (payload : Bytes) (ranges : List (Nat × Nat)) (p : Nat × Bytes) :
    p ∈ inRanges c payload ranges ↔
      p ∈ originals c payload ∧ ∃ g ∈ ranges, g.1 ≤ p.1 ∧ p.1 < g.1 + g.2 := by
  rw [inRanges, List.mem_filter, decide_eq_true_eq]

section Answer

variable {hash : Bytes → TransferId} {c m : Nat} {payload : Bytes} {t : Transfer}

/-- The maximal ranges of the payload that a transfer does not cover, in order. -/
def Transfer.gaps (t : Transfer) : List (Nat × Nat) := Pieces.gaps 0 t.fragments t.totalLen

theorem Transfer.PartOf.gaps_bounds (ht : t.PartOf c payload) {g : Nat × Nat} (hg : g ∈ t.gaps) :
    0 < g.2 ∧ g.1 + g.2 ≤ payload.length := by
  have hb := Pieces.gaps_bounds t.spaced hg
  rw [ht.len] at hb
  exact ⟨hb.2.1, hb.2.2⟩

theorem Transfer.PartOf.rangeFragments_eq (ht : t.PartOf c payload) (hc : 0 < c)
    {ranges : List (Nat × Nat)} (hsub : ranges.Sublist t.gaps) :
    (ranges.flatMap fun g => rangeFragments c payload g.1 (g.1 + g.2)) =
      inRanges c payload ranges := by
  have hsort : ranges.Pairwise fun g g' => g.1 + g.2 ≤ g'.1 :=
    ((Pieces.gaps_pairwise t.spaced).sublist hsub).imp Nat.le_of_lt
  rw [inRanges, originals, ← Pieces.flatMap_ranges (Pieces.cut_spaced hc 0 payload) hsort]
  apply List.flatMap_congr
  intro g hg
  have hgap := hsub.subset hg
  rw [Transfer.gaps, ht.len] at hgap
  rw [rangeFragments, Nat.add_sub_cancel_left]
  exact Pieces.cut_gap hc ht.spaced ht.sub hgap

theorem Transfer.PartOf.clipped_eq (ht : t.PartOf c payload) {ranges : List (Nat × Nat)}
    (hsub : ranges.Sublist t.gaps) :
    (ranges.flatMap fun g =>
        rangeFragments c payload g.1 (min (g.1 + g.2) payload.length)) =
      ranges.flatMap fun g => rangeFragments c payload g.1 (g.1 + g.2) := by
  apply List.flatMap_congr
  intro g hg
  rw [Nat.min_eq_left (ht.gaps_bounds (hsub.subset hg)).2]

theorem originals_word (hs : Sendable limits c payload) {p : Nat × Bytes}
    (hp : p ∈ originals c payload) : p.1 < 2 ^ 32 := by
  have hend := ((Pieces.cut_spaced hs.pos 0 payload).mem hp).2.2
  have hword := hs.word
  omega

def answer (hash : Bytes → TransferId) (c : Nat) (payload : Bytes) (ranges : List (Nat × Nat)) :
    List Bytes :=
  (sendFragments (hash payload) payload.length (fun _ => true) (ranges.flatMap fun g =>
    rangeFragments c payload g.1 (g.1 + g.2))).1

theorem Transfer.PartOf.sendFragments_eq (ht : t.PartOf c payload) (hs : Sendable limits c payload)
    {ranges : List (Nat × Nat)} (hsub : ranges.Sublist t.gaps)
    (hsend : ∀ frame, send frame = true) :
    sendFragments (hash payload) payload.length send (ranges.flatMap fun g =>
        rangeFragments c payload g.1 (g.1 + g.2)) =
      ((inRanges c payload ranges).map (originalFrame hash payload), true) := by
  rw [ht.rangeFragments_eq hs.pos hsub]
  exact sendFragments_all hs.word
    (fun p hp => originals_word hs ((mem_inRanges _ _ _ p).1 hp).1) hsend

theorem Transfer.PartOf.answer_eq (ht : t.PartOf c payload) (hs : Sendable limits c payload)
    {ranges : List (Nat × Nat)} (hsub : ranges.Sublist t.gaps) :
    answer hash c payload ranges = (inRanges c payload ranges).map (originalFrame hash payload) := by
  rw [answer, ht.sendFragments_eq hs hsub fun _ => rfl]

theorem retransmitMissingTo_eq [LinearOrder P] {config : FramingConfig} {b : RecoveryBook P}
    {kept : RecoveryBook P × Option RecoveryPayload} (ht : t.PartOf c payload)
    (hs : Sendable limits c payload) {ranges : List (Nat × Nat)} (hsub : ranges.Sublist t.gaps)
    (henabled : config.selectiveRecovery = true) (hsupports : (b.supports peer now config).2 = true)
    (hkept : (b.supports peer now config).1.payloadForReport peer (hash payload) now config = kept)
    (hpayload : kept.2 = some ⟨payload, last⟩)
    (hcapacity : fragmentPayloadCapacity config.datagramPayloadBudget overhead = some c)
    (hsend : ∀ frame, send frame = true) :
    (retransmitMissingTo config overhead send b peer (hash payload) ranges now).2 =
      ((inRanges c payload ranges).map (originalFrame hash payload), true) := by
  have hvalid : reportValid payload.length 0 ranges = true := by
    apply reportValid_true (fun _ _ => Nat.zero_le _)
    · exact fun g hg => ht.gaps_bounds (hsub.subset hg)
    · exact (Pieces.gaps_pairwise t.spaced).sublist hsub
  have hsent := @Transfer.PartOf.sendFragments_eq hash _ _ _ _ _ ht hs _ hsub hsend
  have hpos := hs.pos
  simp only [retransmitMissingTo, henabled, hsupports, hkept, hpayload, hcapacity,
    Option.getD_some, hvalid, hsent, Bool.not_true,
    Bool.false_eq_true, if_false, if_true, Nat.ne_of_gt hpos]

theorem resendFrames_eq (ht : t.PartOf c payload) (hs : Sendable limits c payload)
    {ranges : List (Nat × Nat)} (hsub : ranges.Sublist t.gaps) (maxFrames : Nat) :
    resendFrames (hash payload) payload c maxFrames ranges =
      .ok (((inRanges c payload ranges).map (originalFrame hash payload)).take
        (max maxFrames 1)) := by
  rw [resendFrames, ht.clipped_eq hsub, ht.rangeFragments_eq hs.pos hsub, writeFragments_ok hs.word]
  · rw [List.map_take]
    rfl
  · intro p hp
    exact originals_word hs ((mem_inRanges _ _ _ p).1 (List.mem_of_mem_take hp)).1

end Answer

namespace Reassembler

variable {P : Type} [LinearOrder P] {hash : Bytes → TransferId} {r s : Reassembler P} {peer : P}
  {c m now : Nat} {payload : Bytes} {q : Nat × Bytes} {t : Transfer} {ds : List (Delivery P)}

theorem missingRanges_eq (hs : Sendable r.limits c payload)
    (ht : r.transfer peer (hash payload) = some t) (hpart : t.PartOf c payload) (m : Nat) :
    r.missingRanges peer (hash payload) m = t.gaps.take m := by
  have hword : t.totalLen < 2 ^ 32 := hpart.len ▸ hs.word
  rw [missingRanges, ht]
  split
  · next h => rw [h, List.take_zero]
  · exact t.missingRanges_eq hword m

theorem writeMissingReport_gaps (hs : Sendable l c payload) (hpart : t.PartOf c payload)
    (hm : m ≤ 65535) : ∃ bytes, writeMissingReport (hash payload) (t.gaps.take m) = .ok bytes := by
  have hword : t.totalLen < 2 ^ 32 := hpart.len ▸ hs.word
  have hwrite := t.writeMissingReport_missingRanges hword hm (hash payload)
  rwa [t.missingRanges_eq hword] at hwrite

theorem Receives.of_some (ht : r.transfer peer (hash payload) = some t)
    (hpart : t.PartOf c payload) : r.Receives hash peer c payload := by
  intro t' ht'
  rw [ht] at ht'
  cases ht'
  exact hpart

/-- The frames of the transfer that are delivered are those of the payload. -/
def Genuine (hash : Bytes → TransferId) (peer : P) (c : Nat) (payload : Bytes)
    (d : Delivery P) : Prop :=
  d.peer = peer → Carries d.frame (hash payload) →
    d.frame ∈ (originals c payload).map (originalFrame hash payload)

theorem Accepted.receives {f : FragmentInput} (h : Accepted hash r peer f now out)
    (hr : r.Receives hash peer c payload)
    (hf : f.id = hash payload → f.totalLen = payload.length ∧ (f.offset, f.bytes) ∈ originals c payload) :
    out.1.Receives hash peer c payload := by
  cases h with
  | refused h e => exact fun t ht => hr t (h.transfer_sub ht)
  | duplicate ht hm =>
    intro t' ht'
    rw [transfer_put] at ht'
    split at ht'
    · next he =>
      cases ht'
      rw [← he.2] at ht
      exact ⟨(hr _ ht).len, (hr _ ht).sub⟩
    · exact hr t' ht'
  | stored h ht hlen hfits =>
    intro t' ht'
    rw [transfer_store] at ht'
    split at ht'
    · next he =>
      obtain ⟨htotal, hmem⟩ := hf he.2.symm
      split at ht'
      · cases ht'
      · cases ht'
        refine @Transfer.PartOf.insert _ _ _ (f.offset, f.bytes) _ ?_ hmem hfits
        rw [← ht]
        cases hl : r.transfer peer f.id with
        | none =>
          rw [htotal]
          exact .new c payload now
        | some t =>
          rw [← he.2] at hl
          exact hr t hl
    · exact hr t' (h.transfer_sub ht')

theorem Accepted.receives_other {f : FragmentInput} {p : P} (h : Accepted hash r p f now out)
    (hne : p ≠ peer) (hr : r.Receives hash peer c payload) :
    out.1.Receives hash peer c payload := by
  intro t ht
  cases h with
  | refused h e => exact hr t (h.transfer_sub ht)
  | duplicate _ _ =>
    rw [transfer_put, if_neg fun he => hne he.1.symm] at ht
    exact hr t ht
  | stored h _ _ _ =>
    rw [transfer_store, if_neg fun he => hne he.1.symm] at ht
    exact hr t (h.transfer_sub ht)

/-- Expiry and eviction included, the transfer never holds anything but fragments of the payload. -/
theorem Receives.deliver {d : Delivery P} (h : r.Receives hash peer c payload)
    (hs : Sendable r.limits c payload) (hd : Genuine hash peer c payload d) :
    (r.accept hash d.peer d.frame d.now).1.Receives hash peer c payload := by
  have hexp := h.expire d.now
  rcases accept_cases hash r d.peer d.frame d.now with ⟨he, _⟩ | ⟨hlen, htag, out, hout, he⟩
  · rwa [he]
  · rw [he]
    by_cases hpeer : d.peer = peer
    · rw [hpeer] at hout
      refine hout.receives hexp fun hid => ?_
      obtain ⟨q, hq, hframe⟩ := List.mem_map.1 (hd hpeer ⟨hlen, htag, hid⟩)
      have hread := @readFragment_originalFrame _ _ _ _ hash hs hq
      simp only [hframe] at hread
      rw [hread]
      exact ⟨rfl, hq⟩
    · exact hout.receives_other hpeer hexp

theorem Receives.run (h : r.Receives hash peer c payload) (hs : Sendable r.limits c payload)
    (hrun : Runs (Reassembler.deliver hash) r ds s) (hds : ∀ d ∈ ds, Genuine hash peer c payload d) :
    s.limits = r.limits ∧ s.Receives hash peer c payload := by
  induction hrun with
  | start => exact ⟨rfl, h⟩
  | snoc hrun hstep ih =>
    cases hstep
    obtain ⟨hlim, hr⟩ := ih fun d hd => hds d (List.mem_append_left _ hd)
    refine ⟨(limits_accept _ _ _ _ _).trans hlim, hr.deliver (hlim ▸ hs) (hds _ ?_)⟩
    exact List.mem_append_right _ List.mem_cons_self

/-- No fragment of the payload is taken for an overlap, however late or often it comes. -/
theorem Receives.not_overlapping (h : r.Receives hash peer c payload)
    (hs : Sendable r.limits c payload) (hq : q ∈ originals c payload) (now : Nat) :
    (r.accept hash peer (originalFrame hash payload q) now).2.outcome ≠
      .error .overlappingFragment := by
  have hlim : Sendable (r.expire now).1.limits c payload := by rwa [limits_expire]
  have hstep := acceptFragment_original now hlim (h.expire now) hq
  rw [accept_originalFrame hs hq]
  simp only [report] at hstep ⊢
  split at hstep
  · rw [hstep.1]
    exact fun he => by cases he
  · rcases hstep with he | he
    · rw [he]
      exact fun he => by cases he
    · unfold Extended at he
      split at he
      · rw [he.1]
        exact fun he => by cases he
      · rw [he.1]
        exact fun he => by cases he

/-- One round from a state: the answer to the report arrives, whatever else arrives is already held
or of another transfer, and the limits and the timeout permit every delivery. -/
structure Lossless (hash : Bytes → TransferId) (peer : P) (c m : Nat) (payload : Bytes)
    (r : Reassembler P) (ds : List (Delivery P)) : Prop where
  permits : EachStep (deliver hash)
    (Permits hash peer payload ((originals c payload).map (originalFrame hash payload))) r ds
  arrives : ∀ frame ∈ answer hash c payload (r.missingRanges peer (hash payload) m),
    frame ∈ delivered peer ds
  nothing_else : ∀ q ∈ originals c payload, originalFrame hash payload q ∈ delivered peer ds →
    originalFrame hash payload q ∈ answer hash c payload (r.missingRanges peer (hash payload) m) ∨
      q ∈ r.fragments peer (hash payload)

def LosslessRounds (hash : Bytes → TransferId) (peer : P) (c m : Nat) (payload : Bytes) :
    Reassembler P → List (List (Delivery P)) → Prop
  | _, [] => True
  | r, ds :: rounds =>
    Lossless hash peer c m payload r ds ∧
      ∀ s, Runs (deliver hash) r ds s → LosslessRounds hash peer c m payload s rounds

def Completes (hash : Bytes → TransferId) (payload : Bytes) (r : Reassembler P)
    (ds : List (Delivery P)) : Prop :=
  ∃ ds₁ d ds₂ s, ds = ds₁ ++ d :: ds₂ ∧ Runs (deliver hash) r ds₁ s ∧
    (s.accept hash d.peer d.frame d.now).2.outcome = .ok (.complete payload)

theorem Completes.append (h : Completes hash payload r ds) (ds' : List (Delivery P)) :
    Completes hash payload r (ds ++ ds') := by
  obtain ⟨ds₁, d, ds₂, s, rfl, hrun, hout⟩ := h
  exact ⟨ds₁, d, ds₂ ++ ds', s, by rw [List.append_assoc, List.cons_append], hrun, hout⟩

theorem Completes.after (h : Completes hash payload s ds') (hrun : Runs (deliver hash) r ds s) :
    Completes hash payload r (ds ++ ds') := by
  obtain ⟨ds₁, d, ds₂, s', rfl, hrun', hout⟩ := h
  refine ⟨ds ++ ds₁, d, ds₂, s', by rw [List.append_assoc], ?_, hout⟩
  exact hrun.append_runAll hrun'.runAll_eq

theorem exists_runs (hash : Bytes → TransferId) (r : Reassembler P) (ds : List (Delivery P)) :
    ∃ s, Runs (deliver hash) r ds s := by
  induction ds using List.reverseRecOn with
  | nil => exact ⟨r, .start⟩
  | append_singleton ds d ih =>
    obtain ⟨s, hs⟩ := ih
    exact ⟨_, hs.snoc rfl⟩

theorem completes_of_all (hr : r.Receives hash peer c payload) (hs : Sendable r.limits c payload)
    (hpermits : EachStep (deliver hash) (Permits hash peer payload
      ((originals c payload).map (originalFrame hash payload))) r ds)
    (hopen : ∃ q ∈ originals c payload, q ∉ r.fragments peer (hash payload))
    (hall : ∀ q ∈ originals c payload,
      Has hash peer payload (r.fragments peer (hash payload)) ds q) :
    Completes hash payload r ds := by
  induction ds using List.reverseRecOn with
  | nil =>
    obtain ⟨q, hq, hn⟩ := hopen
    have hmem := hall q hq
    simp only [Has, delivered, List.filter_nil, List.map_nil, List.not_mem_nil, or_false] at hmem
    exact absurd hmem hn
  | append_singleton ds d ih =>
    by_cases hbefore : ∀ q ∈ originals c payload,
        Has hash peer payload (r.fragments peer (hash payload)) ds q
    · exact (ih hpermits.init hbefore).append [d]
    · simp only [not_forall, exists_prop] at hbefore
      obtain ⟨q, hq, hn⟩ := hbefore
      obtain ⟨s, hrun⟩ := exists_runs hash r ds
      have hgathers := Gathers.run hr hs hrun hpermits.init
      have hlast := hpermits.last hrun rfl
      -- the fragment that was missing came with this delivery
      obtain ⟨hpeer, hframe⟩ : d.peer = peer ∧ d.frame = originalFrame hash payload q := by
        rcases hall q hq with hm | hm
        · exact absurd (.inl hm) hn
        · rcases (delivered_snoc _ _ _ _).1 hm with hm | hm
          · exact absurd (.inr hm) hn
          · exact hm
      have hmem : d.frame ∈ (originals c payload).map (originalFrame hash payload) :=
        List.mem_map.2 ⟨q, hq, hframe.symm⟩
      have hopen' : ∃ q ∈ originals c payload,
          ¬ Has hash peer payload (r.fragments peer (hash payload)) ds q := ⟨q, hq, hn⟩
      have hheld := (hgathers.part hopen').2
      have hstep := hgathers.own hs hopen' hlast.alive hpeer hq hframe (hlast.capacity hpeer hmem)
      simp only [if_neg (mt (hheld q hq).1 hn)] at hstep
      unfold Extended at hstep
      rw [if_pos] at hstep
      · exact ⟨ds, d, [], s, rfl, hrun, hstep.1⟩
      · intro x hx
        rw [List.mem_cons, hheld x hx]
        exact (has_snoc hs hpeer hq hframe hx).1 (hall x hx)

theorem covered_inRanges (ht : t.PartOf c payload) (hc : 0 < c) {ranges : List (Nat × Nat)}
    (hsub : ∀ g ∈ ranges, g ∈ t.gaps) (x : Nat) :
    Pieces.Covered (inRanges c payload ranges) x ↔
      ∃ g ∈ ranges, g.1 ≤ x ∧ x < g.1 + g.2 := by
  have hcut : ∀ g ∈ ranges, Pieces.cut c g.1 ((payload.drop g.1).take g.2) =
      (originals c payload).filter fun p => g.1 ≤ p.1 ∧ p.1 < g.1 + g.2 := by
    intro g hg
    have hgap := hsub g hg
    rw [Transfer.gaps, ht.len] at hgap
    exact Pieces.cut_gap hc ht.spaced ht.sub hgap
  have hlen : ∀ g ∈ ranges, ((payload.drop g.1).take g.2).length = g.2 := by
    intro g hg
    have hb := ht.gaps_bounds (hsub g hg)
    rw [List.length_take, List.length_drop]
    omega
  constructor
  · rintro ⟨p, hp, hle, hlt⟩
    obtain ⟨hp, g, hg, hr⟩ := (mem_inRanges _ _ _ p).1 hp
    have hmem : p ∈ Pieces.cut c g.1 ((payload.drop g.1).take g.2) := by
      rw [hcut g hg, List.mem_filter, decide_eq_true_eq]
      exact ⟨hp, hr⟩
    have hend := ((Pieces.cut_spaced hc _ _).mem hmem).2.2
    rw [hlen g hg] at hend
    exact ⟨g, hg, by omega, by omega⟩
  · rintro ⟨g, hg, hle, hlt⟩
    obtain ⟨p, hp, hr⟩ := Pieces.cut_covered hc g.1 _ hle (by rwa [hlen g hg])
    rw [hcut g hg, List.mem_filter, decide_eq_true_eq] at hp
    exact ⟨p, (mem_inRanges _ _ _ p).2 ⟨hp.1, g, hg, hp.2⟩, hr⟩

theorem has_of_gaps (ht : r.transfer peer (hash payload) = some t) (hpart : t.PartOf c payload)
    (hc : 0 < c) (h : ∀ q ∈ inRanges c payload t.gaps, originalFrame hash payload q ∈ delivered peer ds) :
    ∀ q ∈ originals c payload,
      Has hash peer payload (r.fragments peer (hash payload)) ds q := by
  intro q hq
  rw [Has, fragments_eq ht]
  by_cases hm : q ∈ t.fragments
  · exact .inl hm
  right
  apply h
  refine (mem_inRanges _ _ _ q).2 ⟨hq, ?_⟩
  -- the byte where an absent fragment starts is not covered, so it lies in a gap
  have hpos := (Pieces.cut_spaced hc 0 payload).pos hq
  have hend := ((Pieces.cut_spaced hc 0 payload).mem hq).2.2
  have hfree : ¬ Pieces.Covered t.fragments q.1 := by
    rintro ⟨p, hp, hle, hlt⟩
    have hd := Pieces.disjoint_of_not_mem hc hpart.sub hq hm p hp
    omega
  exact Pieces.mem_gap_of_not_covered t.spaced (Nat.zero_le _) (by rw [hpart.len]; omega) hfree

theorem Lossless.limits_eq (h : Lossless hash peer c m payload r ds)
    (hs : Sendable r.limits c payload) (ht : r.transfer peer (hash payload) = some t)
    (hpart : t.PartOf c payload) (hrun : Runs (deliver hash) r ds s) : s.limits = r.limits :=
  (Gathers.run (Receives.of_some ht hpart) hs hrun h.permits).limits_eq

theorem exists_missing (hpart : t.PartOf c payload) (hc : 0 < c)
    (hk : 0 < (t.gaps.drop k).length) :
    ∃ q ∈ originals c payload, q ∉ t.fragments ∧ q ∉ inRanges c payload (t.gaps.take k) := by
  obtain ⟨g, hg⟩ := List.exists_mem_of_length_pos hk
  have hgap := List.mem_of_mem_drop hg
  have hb := hpart.gaps_bounds hgap
  obtain ⟨q, hq, hle, hlt⟩ := Pieces.cut_covered hc 0 payload (Nat.zero_le g.1) (by omega)
  have hfree := (Pieces.mem_gaps t.spaced g).1 hgap
  refine ⟨q, hq, ?_, ?_⟩
  · intro hm
    exact hfree.free g.1 (Nat.le_refl _) (by omega) ⟨q, hm, hle, hlt⟩
  · intro hm
    obtain ⟨g', hg', hx⟩ := (covered_inRanges hpart hc
      (fun g hg => List.mem_of_mem_take hg) g.1).1 ⟨q, hm, hle, hlt⟩
    have hgap' := (Pieces.mem_gaps t.spaced g').1 (List.mem_of_mem_take hg')
    have he := hfree.eq_of_mem hgap' ⟨Nat.le_refl _, by omega⟩ hx
    rw [← he] at hg'
    exact List.disjoint_take_drop (Pieces.gaps_nodup t.spaced) (Nat.le_refl k) hg' hg

theorem gaps_of_filled {t' : Transfer} (hpart : t.PartOf c payload) (hpart' : t'.PartOf c payload)
    (hc : 0 < c) (hfrag : ∀ x, x ∈ t'.fragments ↔
      x ∈ t.fragments ∨ x ∈ inRanges c payload (t.gaps.take m)) :
    t'.gaps = t.gaps.drop m := by
  have hcov : ∀ x, Pieces.Covered t'.fragments x ↔ Pieces.Covered t.fragments x ∨
      ∃ g ∈ t.gaps.take m, g.1 ≤ x ∧ x < g.1 + g.2 := by
    intro x
    rw [← covered_inRanges hpart hc (fun g hg => List.mem_of_mem_take hg) x]
    simp only [Pieces.Covered, hfrag, or_and_right, exists_or]
  have hspaced : Pieces.Spaced 0 t'.fragments t.totalLen := by
    rw [hpart.len, ← hpart'.len]
    exact t'.spaced
  rw [Transfer.gaps, hpart'.len, ← hpart.len]
  exact Pieces.gaps_fill t.spaced hspaced hcov

theorem answer_missingRanges (hs : Sendable r.limits c payload)
    (ht : r.transfer peer (hash payload) = some t) (hpart : t.PartOf c payload) (m : Nat) :
    answer hash c payload (r.missingRanges peer (hash payload) m) =
      (inRanges c payload (t.gaps.take m)).map (originalFrame hash payload) := by
  rw [missingRanges_eq hs ht hpart m]
  exact hpart.answer_eq hs (List.take_sublist m _)

theorem Lossless.gaps_arrive (h : Lossless hash peer c m payload r ds)
    (hs : Sendable r.limits c payload) (ht : r.transfer peer (hash payload) = some t)
    (hpart : t.PartOf c payload) (hq : q ∈ inRanges c payload (t.gaps.take m)) :
    originalFrame hash payload q ∈ delivered peer ds := by
  apply h.arrives
  rw [answer_missingRanges hs ht hpart]
  exact List.mem_map_of_mem hq

theorem Lossless.has_iff (h : Lossless hash peer c m payload r ds)
    (hs : Sendable r.limits c payload) (ht : r.transfer peer (hash payload) = some t)
    (hpart : t.PartOf c payload) (hq : q ∈ originals c payload) :
    Has hash peer payload (r.fragments peer (hash payload)) ds q ↔
      q ∈ t.fragments ∨ q ∈ inRanges c payload (t.gaps.take m) := by
  rw [Has, fragments_eq ht]
  constructor
  · rintro (hq' | hq')
    · exact .inl hq'
    · rcases h.nothing_else q hq hq' with hm | hm
      · rw [answer_missingRanges hs ht hpart] at hm
        obtain ⟨x, hx, he⟩ := List.mem_map.1 hm
        right
        rwa [originalFrame_injective hs hq ((mem_inRanges _ _ _ x).1 hx).1 he.symm]
      · rw [fragments_eq ht] at hm
        exact .inl hm
  · exact Or.imp_right (h.gaps_arrive hs ht hpart)

/-- A lossless round either completes the transfer or fills the reported ranges and no others. -/
theorem Lossless.progress (h : Lossless hash peer c m payload r ds)
    (hs : Sendable r.limits c payload) (ht : r.transfer peer (hash payload) = some t)
    (hpart : t.PartOf c payload) (hopen : t.gaps ≠ []) (hm : 0 < m)
    (hrun : Runs (deliver hash) r ds s) :
    if t.gaps.length ≤ m then Completes hash payload r ds
    else ∃ t', s.transfer peer (hash payload) = some t' ∧ t'.PartOf c payload ∧
      t'.gaps = t.gaps.drop m := by
  have hr := Receives.of_some ht hpart
  have hhas (x) (hx : x ∈ originals c payload) := h.has_iff hs ht hpart hx
  split
  · next hle =>
    have hopen' : 0 < (t.gaps.drop 0).length := by
      rw [List.drop_zero]
      exact List.length_pos_iff.2 hopen
    obtain ⟨q, hq, hn, _⟩ := exists_missing hpart hs.pos hopen'
    refine completes_of_all hr hs h.permits ⟨q, hq, by rwa [fragments_eq ht]⟩
      (has_of_gaps ht hpart hs.pos ?_)
    intro x hx
    apply h.gaps_arrive hs ht hpart
    rwa [List.take_of_length_le hle]
  · next hgt =>
    have hleft : 0 < (t.gaps.drop m).length := by
      rw [List.length_drop]
      omega
    obtain ⟨q, hq, hn, hn'⟩ := exists_missing hpart hs.pos hleft
    have hgathers := Gathers.run hr hs hrun h.permits
    obtain ⟨hr', hheld⟩ := hgathers.part ⟨q, hq, fun hq' => ((hhas q hq).1 hq').elim hn hn'⟩
    cases ht' : s.transfer peer (hash payload) with
    | none =>
      -- the reported ranges are not empty, so some fragment came
      exfalso
      obtain ⟨g, hg⟩ : ∃ g, g ∈ t.gaps.take m := by
        apply List.exists_mem_of_length_pos
        rw [List.length_take]
        omega
      have hb := hpart.gaps_bounds (List.mem_of_mem_take hg)
      obtain ⟨x, hx, _⟩ := (covered_inRanges hpart hs.pos
        (fun g hg => List.mem_of_mem_take hg) g.1).2 ⟨g, hg, Nat.le_refl _, by omega⟩
      have hx' := ((mem_inRanges _ _ _ x).1 hx).1
      have hmem := (hheld x hx').2 ((hhas x hx').2 (.inr hx))
      rw [fragments, ht'] at hmem
      cases hmem
    | some t' =>
      have hpart' := hr' t' ht'
      refine ⟨t', rfl, hpart', gaps_of_filled hpart hpart' hs.pos ?_⟩
      intro x
      constructor
      · intro hx
        have hx' := hpart'.sub x hx
        rw [← hhas x hx', ← hheld x hx', fragments_eq ht']
        exact hx
      · intro hx
        have hx' : x ∈ originals c payload :=
          hx.elim (hpart.sub x) fun hx => ((mem_inRanges _ _ _ x).1 hx).1
        rw [← fragments_eq ht', hheld x hx', hhas x hx']
        exact hx

theorem rounds_succ (hn : 0 < n) (hm : 0 < m) : (n + m - 1) / m = (n - 1) / m + 1 := by
  rw [← Nat.add_div_right _ hm]
  congr 1
  omega

theorem LosslessRounds.completes {rounds : List (List (Delivery P))}
    (h : LosslessRounds hash peer c m payload r rounds) (hs : Sendable r.limits c payload)
    (ht : r.transfer peer (hash payload) = some t) (hpart : t.PartOf c payload)
    (hopen : t.gaps ≠ []) (hm : 0 < m) (hn : (t.gaps.length + m - 1) / m ≤ rounds.length) :
    Completes hash payload r (rounds.take ((t.gaps.length + m - 1) / m)).flatten := by
  induction rounds generalizing r t with
  | nil =>
    rw [rounds_succ (List.length_pos_iff.2 hopen) hm] at hn
    exact absurd hn (Nat.not_succ_le_zero _)
  | cons ds rounds ih =>
    obtain ⟨hround, hrest⟩ := h
    obtain ⟨s, hrun⟩ := exists_runs hash r ds
    have hstep := hround.progress hs ht hpart hopen hm hrun
    rw [rounds_succ (List.length_pos_iff.2 hopen) hm] at hn ⊢
    rw [List.take_succ_cons, List.flatten_cons]
    split at hstep
    · exact hstep.append _
    · next hgt =>
      obtain ⟨t', ht', hpart', hgaps⟩ := hstep
      have hlen : t'.gaps.length = t.gaps.length - m := by rw [hgaps, List.length_drop]
      have hopen' : t'.gaps ≠ [] := List.ne_nil_of_length_pos (by omega)
      have hlim : s.limits = r.limits := hround.limits_eq hs ht hpart hrun
      have hleft : t.gaps.length - 1 = t'.gaps.length + m - 1 := by omega
      rw [hleft] at hn ⊢
      exact (ih (hrest s hrun) (hlim ▸ hs) ht' hpart' hopen' (Nat.le_of_succ_le_succ hn)).after hrun

/-- Selective recovery of a transfer of which some fragments are held and some are not. The report
lists the first missing ranges, its answer is exactly the fragments in them, no fragment is ever taken
for an overlap, and lossless rounds complete the transfer. -/
theorem selective_recovery (hs : Sendable r.limits c payload) (hm : 1 ≤ m) (hm' : m ≤ 65535)
    (ht : r.transfer peer (hash payload) = some t) (hpart : t.PartOf c payload)
    (hmissing : ∃ q ∈ originals c payload, q ∉ t.fragments) :
    ∃ gaps : List (Nat × Nat),
      (∀ g, g ∈ gaps ↔ Pieces.IsGap (Pieces.Covered t.fragments) 0 payload.length g) ∧
      gaps.Pairwise (fun g g' => g.1 + g.2 < g'.1) ∧
      r.missingRanges peer (hash payload) m = gaps.take m ∧
      (∃ bytes, writeMissingReport (hash payload) (gaps.take m) = .ok bytes ∧
        ∀ limit, (gaps.take m).length ≤ limit →
          parseRecoveryControl bytes limit = .ok (some (.missing (hash payload) (gaps.take m)))) ∧
      (∀ (config : FramingConfig) (overhead : Nat) (send : Bytes → Bool) (b : RecoveryBook P)
          (now : Nat) (last : Bool),
        config.selectiveRecovery = true → (b.supports peer now config).2 = true →
        ((b.supports peer now config).1.payloadForReport peer (hash payload) now config).2 =
          some ⟨payload, last⟩ →
        fragmentPayloadCapacity config.datagramPayloadBudget overhead = some c →
        (∀ frame, send frame = true) →
        (retransmitMissingTo config overhead send b peer (hash payload) (gaps.take m) now).2 =
          ((inRanges c payload (gaps.take m)).map (originalFrame hash payload), true)) ∧
      (∀ maxFrames, resendFrames (hash payload) payload c maxFrames (gaps.take m) =
        .ok (((inRanges c payload (gaps.take m)).map (originalFrame hash payload)).take
          (max maxFrames 1))) ∧
      (∀ ds s q now, Runs (deliver hash) r ds s → (∀ d ∈ ds, Genuine hash peer c payload d) →
        q ∈ originals c payload →
        (s.accept hash peer (originalFrame hash payload q) now).2.outcome ≠
          .error .overlappingFragment) ∧
      ∀ rounds, LosslessRounds hash peer c m payload r rounds →
        (gaps.length + m - 1) / m ≤ rounds.length →
        Completes hash payload r (rounds.take ((gaps.length + m - 1) / m)).flatten := by
  have hopen : t.gaps ≠ [] := by
    obtain ⟨q, hq, hn⟩ := hmissing
    rw [Ne, Transfer.gaps, Pieces.gaps_eq_nil_iff t.spaced, Nat.zero_add, ← t.retained_eq,
      hpart.retained_iff hs.pos]
    exact fun hall => hn (hall q hq)
  have hsub : (t.gaps.take m).Sublist t.gaps := List.take_sublist m _
  refine ⟨t.gaps, ?_, Pieces.gaps_pairwise t.spaced, missingRanges_eq hs ht hpart m, ?_, ?_, ?_, ?_,
    ?_⟩
  · intro g
    rw [Transfer.gaps, ← hpart.len]
    exact Pieces.mem_gaps t.spaced g
  · obtain ⟨bytes, hbytes⟩ := @writeMissingReport_gaps hash c m payload t _ hs hpart hm'
    exact ⟨bytes, hbytes, fun limit hlimit => parse_writeMissingReport hbytes hlimit⟩
  · intro config overhead send b now last henabled hsupports hkept hcapacity hsend
    exact retransmitMissingTo_eq hpart hs hsub henabled hsupports rfl hkept hcapacity hsend
  · intro maxFrames
    exact resendFrames_eq hpart hs hsub maxFrames
  · intro ds s q now hrun hds hq
    obtain ⟨hlim, hr⟩ := (Receives.of_some ht hpart).run hs hrun hds
    exact hr.not_overlapping (hlim ▸ hs) hq now
  · intro rounds hrounds hn
    exact hrounds.completes hs ht hpart hopen hm hn

/-- Three fragments of one byte of which the middle one is held. -/
theorem selective_recovery_middle_held :
    ∃ (hash : Bytes → TransferId) (r : Reassembler Nat) (gaps : List (Nat × Nat)),
      (∀ g, g ∈ gaps ↔ Pieces.IsGap (Pieces.Covered [(1, ([8] : Bytes))]) 0 3 g) ∧
        r.missingRanges 0 (hash [7, 8, 9]) 1 = gaps.take 1 ∧
        r.missingRanges 0 (hash [7, 8, 9]) 1 = [(0, 1)] := by
  let hash : Bytes → TransferId := fun _ => ⟨List.replicate 32 0, List.length_replicate⟩
  let payload : Bytes := [7, 8, 9]
  let r₀ : Reassembler Nat := forIdentity ({} : FramingConfig).reassemblyLimits
  let t := (Transfer.new 3 5).insert 1 [8] 5 ⟨by decide, by decide, rfl⟩
  let r := r₀.put 0 (hash payload) t 1
  have hs : Sendable r.limits 1 payload := ⟨by decide, by decide, by decide, by decide⟩
  have ht : r.transfer 0 (hash payload) = some t :=
    (transfer_put _ _ _ _ _ _ _).trans (if_pos ⟨rfl, rfl⟩)
  have hpart : t.PartOf 1 payload := ⟨rfl, by decide⟩
  obtain ⟨gaps, hgaps, _, hranges, _⟩ := selective_recovery hs (Nat.le_refl 1) (by decide) ht hpart
    ⟨(0, [7]), by decide, by decide⟩
  exact ⟨hash, r, gaps, hgaps, hranges, by decide⟩

end Reassembler

end Reconcile
