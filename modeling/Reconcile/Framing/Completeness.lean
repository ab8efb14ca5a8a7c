import Reconcile.Framing.Slot
import Reconcile.Lib.Transition

namespace Reconcile
open Lib
set_option autoImplicit true

/-- A transfer that holds fragments of one payload cut at `c`, and nothing else. -/
structure Transfer.PartOf (t : Transfer) (c : Nat) (payload : Bytes) : Prop where
  len : t.totalLen = payload.length
  sub : ∀ p ∈ t.fragments, p ∈ originals c payload

namespace Transfer.PartOf

variable {t : Transfer} {c : Nat} {payload : Bytes} {p : Nat × Bytes}

theorem spaced (h : t.PartOf c payload) : Pieces.Spaced 0 t.fragments payload.length :=
  h.len ▸ t.spaced

theorem new (c : Nat) (payload : Bytes) (now : Nat) :
    (Transfer.new payload.length now).PartOf c payload :=
  ⟨rfl, fun _ hp => absurd hp List.not_mem_nil⟩

theorem fits (h : t.PartOf c payload) (hc : 0 < c) (hp : p ∈ originals c payload)
    (hn : p ∉ t.fragments) : t.Fits p.1 p.2 := by
  obtain ⟨_, hne, hend⟩ := (Pieces.cut_spaced hc 0 payload).mem hp
  have hpos := List.length_pos_iff.2 hne
  have hd := Pieces.disjoint_of_not_mem hc h.sub hp hn
  refine ⟨hne, by rw [h.len]; omega, ?_⟩
  rw [← Bool.not_eq_true, t.spaced.overlaps_iff (by omega)]
  rintro ⟨q, hq, hlt, hgt⟩
  have hdq := hd q hq
  omega

theorem find_eq_none (h : t.PartOf c payload) (hc : 0 < c) (hp : p ∈ originals c payload)
    (hn : p ∉ t.fragments) : Pieces.find t.fragments p.1 = none := by
  cases hf : Pieces.find t.fragments p.1 with
  | none => rfl
  | some b =>
    have hm : (p.1, b) ∈ t.fragments := t.spaced.find_eq.1 hf
    exact absurd rfl ((h.fits hc hp hn).offset_ne (p.1, b) hm)

theorem mem_insert (hfits : t.Fits p.1 p.2) (q : Nat × Bytes) :
    q ∈ (t.insert p.1 p.2 now hfits).fragments ↔ q = p ∨ q ∈ t.fragments :=
  Pieces.mem_place hfits.offset_ne q

theorem insert (h : t.PartOf c payload) (hp : p ∈ originals c payload) (hfits : t.Fits p.1 p.2) :
    (t.insert p.1 p.2 now hfits).PartOf c payload := by
  refine ⟨h.len, fun q hq => ?_⟩
  rcases (mem_insert hfits q).1 hq with rfl | hq
  · exact hp
  · exact h.sub q hq

/-- The byte count reaches the length exactly when every fragment is held. -/
theorem retained_iff (h : t.PartOf c payload) (hc : 0 < c) :
    t.retainedBytes = t.totalLen ↔ ∀ q ∈ originals c payload, q ∈ t.fragments := by
  rw [t.retained_eq, h.len]
  exact Pieces.size_eq_length_iff hc h.spaced h.sub

theorem join_eq (h : t.PartOf c payload) (hc : 0 < c)
    (hall : ∀ q ∈ originals c payload, q ∈ t.fragments) : Pieces.join t.fragments = payload := by
  have hs := (h.retained_iff hc).2 hall
  rw [t.retained_eq, h.len] at hs
  exact Pieces.join_eq_of_size hc h.spaced h.sub hs

end Transfer.PartOf

namespace Reassembler

variable {P : Type} [LinearOrder P] {hash : Bytes → TransferId} {r : Reassembler P} {peer p : P}
  {id i : TransferId} {c now : Nat} {payload : Bytes} {q : Nat × Bytes}

def fragments (r : Reassembler P) (peer : P) (id : TransferId) : List (Nat × Bytes) :=
  match r.transfer peer id with
  | some t => t.fragments
  | none => []

def Receives (hash : Bytes → TransferId) (r : Reassembler P) (peer : P) (c : Nat)
    (payload : Bytes) : Prop :=
  ∀ t, r.transfer peer (hash payload) = some t → t.PartOf c payload

def Alive (r : Reassembler P) (peer : P) (id : TransferId) (now : Nat) : Prop :=
  ∀ t, r.transfer peer id = some t → now - t.lastActivity < r.limits.reassemblyTtl

theorem transfer_expire_of_alive (h : r.Alive peer id now) :
    (r.expire now).1.transfer peer id = r.transfer peer id := by
  rw [transfer_expire]
  cases ht : r.transfer peer id with
  | none => rfl
  | some t => rw [Option.filter_some, if_pos (decide_eq_true (h t ht))]

def Extended (hash : Bytes → TransferId) (peer : P) (c : Nat) (payload : Bytes)
    (parts : List (Nat × Bytes)) (r : Reassembler P) (outcome : Except FrameError ReceiveOutcome) :
    Prop :=
  if ∀ p ∈ originals c payload, p ∈ parts then
    outcome = .ok (.complete payload) ∧ r.transfer peer (hash payload) = none
  else
    outcome = .ok .pending ∧
      ∃ t, r.transfer peer (hash payload) = some t ∧ t.PartOf c payload ∧
        ∀ p, p ∈ t.fragments ↔ p ∈ parts

theorem store_extended {t : Transfer} (ht : t.PartOf c payload) (hc : 0 < c)
    (hparts : ∀ p, p ∈ t.fragments ↔ p ∈ parts) :
    Extended hash peer c payload parts (r.store hash peer (hash payload) t n).1
      (r.store hash peer (hash payload) t n).2 := by
  have htransfer := transfer_store hash r peer peer (hash payload) (hash payload) t n
  rw [if_pos ⟨rfl, rfl⟩] at htransfer
  have hall : t.retainedBytes = t.totalLen ↔ ∀ p ∈ originals c payload, p ∈ parts := by
    rw [ht.retained_iff hc]
    exact forall₂_congr fun p _ => hparts p
  unfold Extended
  split
  · next h =>
    rw [if_pos (hall.2 h)] at htransfer
    refine ⟨?_, htransfer⟩
    have hjoin := ht.join_eq hc ((ht.retained_iff hc).1 (hall.2 h))
    simp only [store, hjoin, ne_eq, hall.2 h, not_true_eq_false, if_false]
  · next h =>
    rw [if_neg fun he => h (hall.1 he)] at htransfer
    refine ⟨?_, t, htransfer, ht, hparts⟩
    simp only [store, ne_eq, mt hall.1 h, not_false_eq_true, if_true]

theorem accept_originalFrame (hc : Sendable r.limits c payload) (hq : q ∈ originals c payload) :
    r.accept hash peer (originalFrame hash payload q) now =
      let out := (r.expire now).1.acceptFragment hash peer
        ⟨hash payload, payload.length, q.1, q.2⟩ now
      out.1.report out.2.2 (r.expire now).2 out.2.1 true := by
  rw [accept_fragment _ (originalFrame_header hash payload q) rfl,
    readFragment_originalFrame hc hq]

theorem fragmentInput_originalFrame {limits : ReassemblyLimits} (hs : Sendable limits c payload)
    (hq : q ∈ originals c payload) :
    fragmentInput (originalFrame hash payload q) =
      some ⟨hash payload, payload.length, q.1, q.2⟩ := by
  rw [fragmentInput, dif_pos ⟨rfl, originalFrame_header hash payload q⟩,
    readFragment_originalFrame hs hq]

theorem extendTransfer_original (hash : Bytes → TransferId) (peer : P) (now : Nat) {t : Transfer}
    (hs : Sendable r.limits c payload) (ht : t.PartOf c payload) (hq : q ∈ originals c payload) (hb : q.2 ≠ [])
    (he : q.1 + q.2.length ≤ payload.length) :
    let out := r.extendTransfer hash peer ⟨hash payload, payload.length, q.1, q.2⟩ t now hb he
    if q ∈ t.fragments then
      out.2.2 = .ok .duplicate ∧ out.1.transfer peer (hash payload) = some (t.touch now)
    else
      out.2.2 = .error .reassemblyCapacity ∨
        Extended hash peer c payload (q :: t.fragments) out.1 out.2.2 := by
  unfold extendTransfer
  rw [dif_neg (not_not.2 ht.len)]
  by_cases hm : q ∈ t.fragments
  · simp only [if_pos hm, t.spaced.find_eq.2 hm, if_true, true_and]
    rw [transfer_put, if_pos ⟨rfl, rfl⟩]
  · have hfits := ht.fits hs.pos hq hm
    have hlt := Pieces.length_lt_of_not_mem ht.spaced ht.sub hq hm
    have hmax := hs.count
    have hroom : ¬ r.limits.maxFragmentsPerMessage ≤ t.fragments.length := by omega
    simp only [if_neg hm, ht.find_eq_none hs.pos hq hm, hfits.free, Bool.false_eq_true, dite_false,
      if_neg hroom]
    split
    · next e he => exact .inl (congrArg Except.error (makeByteRoom_error he))
    · right
      apply store_extended (ht.insert hq hfits) hs.pos
      intro p
      rw [Transfer.PartOf.mem_insert hfits, List.mem_cons]

theorem openTransfer_original (hs : Sendable r.limits c payload) (hq : q ∈ originals c payload)
    (hb : q.2 ≠ []) (he : q.1 + q.2.length ≤ payload.length) :
    let out := r.openTransfer hash peer ⟨hash payload, payload.length, q.1, q.2⟩ now hb he
    out.2.2 = .error .reassemblyCapacity ∨ Extended hash peer c payload [q] out.1 out.2.2 := by
  have hnew := Transfer.PartOf.new c payload now
  have hfits := hnew.fits hs.pos hq List.not_mem_nil
  unfold openTransfer
  simp only
  split
  · next e he => exact .inl (congrArg Except.error (makeTransferSlot_error he))
  split
  · next e he => exact .inl (congrArg Except.error (makeByteRoom_error he))
  · right
    apply store_extended (hnew.insert hq hfits) hs.pos
    intro p
    rw [Transfer.PartOf.mem_insert hfits, List.mem_cons]
    rfl

/-- Taking in a fragment of the payload: found again, refused for want of room, or stored. -/
theorem acceptFragment_original (now : Nat) (hs : Sendable r.limits c payload)
    (hr : r.Receives hash peer c payload) (hq : q ∈ originals c payload) :
    let out := r.acceptFragment hash peer ⟨hash payload, payload.length, q.1, q.2⟩ now
    if q ∈ r.fragments peer (hash payload) then
      out.2.2 = .ok .duplicate ∧
        ∃ t, r.transfer peer (hash payload) = some t ∧
          out.1.transfer peer (hash payload) = some (t.touch now)
    else
      out.2.2 = .error .reassemblyCapacity ∨
        Extended hash peer c payload (q :: r.fragments peer (hash payload)) out.1 out.2.2 := by
  obtain ⟨_, hne, hend⟩ := (Pieces.cut_spaced hs.pos 0 payload).mem hq
  rw [Nat.zero_add] at hend
  have hcount : 0 < Pieces.chunkCount c payload := by
    apply Nat.zero_lt_of_lt (Pieces.length_lt_of_not_mem (Nat.zero_le _) _ hq List.not_mem_nil)
    intro p hp
    cases hp
  have hmax : r.limits.maxFragmentsPerMessage ≠ 0 := by
    have hle := hs.count
    omega
  simp only [acceptFragment, dif_neg hne, if_neg (Nat.not_lt.2 hs.size), if_neg hmax,
    dif_neg (Nat.not_lt.2 hend)]
  cases ht : r.transfer peer (hash payload) with
  | some t =>
    have hstep := extendTransfer_original hash peer now hs (hr t ht) hq hne hend
    simp only [fragments, ht] at hstep ⊢
    split
    · next hm =>
      rw [if_pos hm] at hstep
      exact ⟨hstep.1, t, rfl, hstep.2⟩
    · next hm =>
      rw [if_neg hm] at hstep
      exact hstep
  | none =>
    simp only [fragments, ht, List.not_mem_nil, if_false]
    exact openTransfer_original hs hq hne hend

def Carries (bytes : Bytes) (id : TransferId) : Prop :=
  ∃ h : fragmentHeaderLen ≤ bytes.length,
    bytes.head? = some fragmentTag ∧ (readFragment bytes h).id = id

theorem accept_cases (hash : Bytes → TransferId) (r : Reassembler P) (peer : P) (bytes : Bytes)
    (now : Nat) :
    ((r.accept hash peer bytes now).1 = (r.expire now).1 ∧
        (fragmentHeaderLen ≤ bytes.length → bytes.head? ≠ some fragmentTag)) ∨
      ∃ h : fragmentHeaderLen ≤ bytes.length,
        bytes.head? = some fragmentTag ∧
          ∃ out, Accepted hash (r.expire now).1 peer (readFragment bytes h) now out ∧
            r.accept hash peer bytes now =
              out.1.report out.2.2 (r.expire now).2 out.2.1 true := by
  by_cases h : fragmentHeaderLen ≤ bytes.length
  · by_cases htag : bytes.head? = some fragmentTag
    · right
      exact ⟨h, htag, _, acceptFragment_accepted hash _ peer _ now, accept_fragment bytes h htag⟩
    · left
      refine ⟨?_, fun _ => htag⟩
      cases bytes with
      | nil => rfl
      | cons tag body =>
        rw [List.head?_cons, Option.some.injEq] at htag
        unfold accept
        simp only [ne_eq, htag, not_false_eq_true, if_true]
        split
        · split <;> rfl
        · rfl
  · left
    refine ⟨?_, fun h' => absurd h' h⟩
    cases bytes with
    | nil => rfl
    | cons tag body =>
      unfold accept
      simp only [dif_neg h]
      split
      · split <;> rfl
      · split <;> rfl

theorem accept_other {bytes : Bytes} (halive : r.Alive p i now)
    (hother : ¬ (p = peer ∧ Carries bytes i))
    (hroom : (r.accept hash peer bytes now).2.evictedTransfers = 0) :
    (r.accept hash peer bytes now).1.transfer p i = r.transfer p i := by
  rw [← transfer_expire_of_alive halive]
  rcases accept_cases hash r peer bytes now with ⟨he, _⟩ | ⟨h, htag, out, hout, he⟩
  · rw [he]
  · rw [he] at hroom ⊢
    exact hout.other (fun hk => hother ⟨hk.1, h, htag, hk.2.symm⟩) hroom

structure Delivery (P : Type) where
  peer : P
  frame : Bytes
  now : Nat

def deliver (hash : Bytes → TransferId) (r : Reassembler P) (d : Delivery P) :
    Option (Reassembler P) :=
  some (r.accept hash d.peer d.frame d.now).1

def delivered (peer : P) (ds : List (Delivery P)) : List Bytes :=
  (ds.filter fun d => d.peer = peer).map Delivery.frame

theorem mem_delivered (peer : P) (ds : List (Delivery P)) (frame : Bytes) :
    frame ∈ delivered peer ds ↔ ∃ d ∈ ds, d.peer = peer ∧ d.frame = frame := by
  simp only [delivered, List.mem_map, List.mem_filter, decide_eq_true_eq, and_assoc]

theorem delivered_snoc (peer : P) (ds : List (Delivery P)) (d : Delivery P) (frame : Bytes) :
    frame ∈ delivered peer (ds ++ [d]) ↔
      frame ∈ delivered peer ds ∨ (d.peer = peer ∧ d.frame = frame) := by
  simp only [mem_delivered, List.mem_append, List.mem_singleton, or_and_right, exists_or,
    exists_eq_left]

/-- The side conditions of one delivery: the transfer does not expire, its own fragments are those
sent, and no limit forces an eviction, of another transfer's fragments or of its own. -/
structure Permits (hash : Bytes → TransferId) (peer : P) (payload : Bytes) (frames : List Bytes)
    (r : Reassembler P) (d : Delivery P) (_ : Reassembler P) : Prop where
  alive : r.Alive peer (hash payload) d.now
  genuine : d.peer = peer → Carries d.frame (hash payload) → d.frame ∈ frames
  room : (r.accept hash d.peer d.frame d.now).2.evictedTransfers = 0
  capacity : d.peer = peer → d.frame ∈ frames →
    (r.accept hash d.peer d.frame d.now).2.outcome ≠ .error .reassemblyCapacity

section Run

variable (hash : Bytes → TransferId) (peer : P) (c : Nat) (payload : Bytes)

def Has (base : List (Nat × Bytes)) (ds : List (Delivery P)) (q : Nat × Bytes) : Prop :=
  q ∈ base ∨ originalFrame hash payload q ∈ delivered peer ds

/-- While a fragment is outstanding, the transfer holds exactly the fragments held at the start and
those that came since. -/
structure Gathers (limits : ReassemblyLimits) (base : List (Nat × Bytes)) (ds : List (Delivery P))
    (r : Reassembler P) : Prop where
  limits_eq : r.limits = limits
  part : (∃ q ∈ originals c payload, ¬ Has hash peer payload base ds q) →
    r.Receives hash peer c payload ∧
      ∀ q ∈ originals c payload,
        q ∈ r.fragments peer (hash payload) ↔ Has hash peer payload base ds q

end Run

theorem Receives.expire (h : r.Receives hash peer c payload) (now : Nat) :
    (r.expire now).1.Receives hash peer c payload := by
  intro t ht
  rw [transfer_expire] at ht
  exact h t (Option.filter_eq_some_iff.1 ht).1

theorem fragments_eq (h : r.transfer peer id = some t) : r.fragments peer id = t.fragments := by
  rw [fragments, h]

theorem fragments_congr {s : Reassembler P} (h : s.transfer peer id = r.transfer peer id) :
    s.fragments peer id = r.fragments peer id := by
  rw [fragments, h, fragments]

theorem accept_original (hs : Sendable r.limits c payload) (hr : r.Receives hash peer c payload)
    (halive : r.Alive peer (hash payload) now) (hq : q ∈ originals c payload) :
    let out := r.accept hash peer (originalFrame hash payload q) now
    if q ∈ r.fragments peer (hash payload) then
      out.2.outcome = .ok .duplicate ∧
        ∃ t, r.transfer peer (hash payload) = some t ∧
          out.1.transfer peer (hash payload) = some (t.touch now)
    else
      out.2.outcome = .error .reassemblyCapacity ∨
        Extended hash peer c payload (q :: r.fragments peer (hash payload)) out.1
          out.2.outcome := by
  have hexp := transfer_expire_of_alive halive
  have hlim : Sendable (r.expire now).1.limits c payload := by rwa [limits_expire]
  have hstep := acceptFragment_original now hlim (hr.expire now) hq
  simp only [fragments_congr hexp, hexp] at hstep
  rw [accept_originalFrame hs hq]
  exact hstep

section Run

variable {limits : ReassemblyLimits} {base : List (Nat × Bytes)} {ds : List (Delivery P)}
  {d : Delivery P}

theorem Gathers.start (hr : r.Receives hash peer c payload) :
    Gathers hash peer c payload r.limits (r.fragments peer (hash payload)) [] r := by
  refine ⟨rfl, fun _ => ⟨hr, fun q _ => ?_⟩⟩
  simp only [Has, delivered, List.filter_nil, List.map_nil, List.not_mem_nil, or_false]

theorem has_nil {ds : List (Delivery P)} {q : Nat × Bytes} :
    Has hash peer payload [] ds q ↔ originalFrame hash payload q ∈ delivered peer ds := by
  simp only [Has, List.not_mem_nil, false_or]

theorem has_snoc (hs : Sendable limits c payload) (hpeer : d.peer = peer)
    (hq : q ∈ originals c payload) (hframe : d.frame = originalFrame hash payload q)
    {x : Nat × Bytes} (hx : x ∈ originals c payload) :
    Has hash peer payload base (ds ++ [d]) x ↔ x = q ∨ Has hash peer payload base ds x := by
  rw [Has, Has, delivered_snoc, ← or_assoc, or_comm]
  refine or_congr_left ⟨?_, ?_⟩
  · rintro ⟨_, he⟩
    exact originalFrame_injective hs hx hq (he.symm.trans hframe)
  · rintro rfl
    exact ⟨hpeer, hframe⟩

theorem Gathers.own (h : Gathers hash peer c payload limits base ds r)
    (hs : Sendable limits c payload)
    (hopen : ∃ q ∈ originals c payload, ¬ Has hash peer payload base ds q)
    (halive : r.Alive peer (hash payload) d.now) (hpeer : d.peer = peer)
    (hq : q ∈ originals c payload) (hframe : d.frame = originalFrame hash payload q)
    (hcap : (r.accept hash d.peer d.frame d.now).2.outcome ≠ .error .reassemblyCapacity) :
    let out := r.accept hash d.peer d.frame d.now
    if q ∈ r.fragments peer (hash payload) then
      out.2.outcome = .ok .duplicate ∧
        ∃ t, r.transfer peer (hash payload) = some t ∧
          out.1.transfer peer (hash payload) = some (t.touch d.now)
    else Extended hash peer c payload (q :: r.fragments peer (hash payload)) out.1
      out.2.outcome := by
  have hstep := accept_original (h.limits_eq ▸ hs) (h.part hopen).1 halive hq
  rw [hframe, hpeer] at hcap ⊢
  simp only at hstep ⊢
  split
  · next hm => rwa [if_pos hm] at hstep
  · next hm =>
    rw [if_neg hm] at hstep
    exact hstep.resolve_left hcap

theorem Gathers.step (h : Gathers hash peer c payload limits base ds r)
    (hs : Sendable limits c payload) (hd : deliver hash r d = some r')
    (hp : Permits hash peer payload ((originals c payload).map (originalFrame hash payload)) r d r') :
    Gathers hash peer c payload limits base (ds ++ [d]) r' := by
  cases hd
  refine ⟨(limits_accept _ _ _ _ _).trans h.limits_eq, ?_⟩
  rintro ⟨q₀, hq₀, hnot⟩
  have hopen : ∃ q ∈ originals c payload, ¬ Has hash peer payload base ds q :=
    ⟨q₀, hq₀, fun hm => hnot (hm.imp_right fun hm => (delivered_snoc _ _ _ _).2 (.inl hm))⟩
  obtain ⟨hr, hheld⟩ := h.part hopen
  by_cases hown : d.peer = peer ∧ d.frame ∈ (originals c payload).map (originalFrame hash payload)
  · obtain ⟨hpeer, hmem⟩ := hown
    obtain ⟨q, hq, hframe⟩ := List.mem_map.1 hmem
    have hstep := h.own hs hopen hp.alive hpeer hq hframe.symm (hp.capacity hpeer hmem)
    have hsnoc := fun x (hx : x ∈ originals c payload) =>
      @has_snoc _ _ hash peer c payload q limits base ds d hs hpeer hq hframe.symm x hx
    simp only at hstep
    split at hstep
    · next hm =>
      obtain ⟨_, t, ht, ht'⟩ := hstep
      refine ⟨fun t' hr' => ?_, fun x hx => ?_⟩
      · rw [ht'] at hr'
        cases hr'
        exact ⟨(hr t ht).len, (hr t ht).sub⟩
      · rw [fragments_eq ht', Transfer.fragments_touch, hsnoc x hx, ← hheld x hx, fragments_eq ht]
        refine ⟨.inr, fun hx' => hx'.elim ?_ (fun h => h)⟩
        rintro rfl
        rwa [← fragments_eq ht]
    · unfold Extended at hstep
      rw [if_neg] at hstep
      · obtain ⟨_, t, ht, hpart, hfrag⟩ := hstep
        refine ⟨fun t' hr' => ?_, fun x hx => ?_⟩
        · rw [ht] at hr'
          cases hr'
          exact hpart
        · rw [fragments_eq ht, hfrag, List.mem_cons, hsnoc x hx, hheld x hx]
      · intro hall
        refine hnot ((hsnoc q₀ hq₀).2 ?_)
        exact (List.mem_cons.1 (hall q₀ hq₀)).imp_right (hheld q₀ hq₀).1
  · have hother : ¬ (peer = d.peer ∧ Carries d.frame (hash payload)) :=
      fun ho => hown ⟨ho.1.symm, hp.genuine ho.1.symm ho.2⟩
    have hsame := accept_other hp.alive hother hp.room
    refine ⟨fun t ht => hr t (hsame ▸ ht), fun x hx => ?_⟩
    rw [fragments_congr hsame, hheld x hx, Has, Has, delivered_snoc]
    refine or_congr_right ⟨.inl, fun hx' => hx'.elim (fun h => h) ?_⟩
    rintro ⟨hpeer, hframe⟩
    exact absurd ⟨hpeer, List.mem_map.2 ⟨x, hx, hframe.symm⟩⟩ hown

theorem Gathers.run (h : r.Receives hash peer c payload) (hs : Sendable r.limits c payload)
    (hrun : Runs (deliver hash) r ds r')
    (hpermits : EachStep (deliver hash) (Permits hash peer payload
      ((originals c payload).map (originalFrame hash payload))) r ds) :
    Gathers hash peer c payload r.limits (r.fragments peer (hash payload)) ds r' :=
  hrun.invariant_of _ (Gathers.start h) (fun _ _ _ _ h hd hp => h.step hs hd hp) hpermits

end Run

/-- Limits that have room for a message of `length` bytes in `fragments` pieces. -/
structure Accommodates (limits : ReassemblyLimits) (length fragments : Nat) : Prop where
  size : length ≤ limits.maxLogicalMessageSize
  count : fragments ≤ limits.maxFragmentsPerMessage
  slots : 0 < limits.maxIncompleteTransfersPerPeer
  room : limits.Holds length

theorem Accommodates.sendable {limits sending : ReassemblyLimits} (h : Accommodates limits
    payload.length ((originals c payload).map (originalFrame hash payload)).length)
    (hs : Sendable sending c payload) : Sendable limits c payload := by
  refine ⟨hs.pos, hs.word, h.size, ?_⟩
  have hcount := h.count
  rwa [List.length_map, originals, Pieces.length_cut] at hcount

/-- One delivery does not let the transfer expire, its own fragments are those sent, and nothing is
evicted. -/
structure Undisturbed (hash : Bytes → TransferId) (peer : P) (payload : Bytes)
    (frames : List Bytes) (r : Reassembler P) (d : Delivery P) (_ : Reassembler P) : Prop where
  alive : r.Alive peer (hash payload) d.now
  genuine : d.peer = peer → Carries d.frame (hash payload) → d.frame ∈ frames
  room : (r.accept hash d.peer d.frame d.now).2.evictedTransfers = 0

/-- Room for a fragment can be made whatever else is held. -/
theorem Accounted.accept_ne_capacity (h : r.Accounted) (hs : Sendable r.limits c payload)
    (hslots : 0 < r.limits.maxIncompleteTransfersPerPeer) (hroom : r.limits.Holds payload.length)
    (hq : q ∈ originals c payload) (peer : P) (now : Nat) :
    (r.accept hash peer (originalFrame hash payload q) now).2.outcome ≠
      .error .reassemblyCapacity := by
  have hanswer := congrArg Prod.snd (acceptFragment_offer hash (h.expire now).balanced peer
    ⟨hash payload, payload.length, q.1, q.2⟩ now)
  rw [accept_outcome (fragmentInput_originalFrame hs hq)]
  refine ne_of_eq_of_ne hanswer (Slot.offer_ne_capacity ?_ ?_ ?_)
  · intro s hs
    obtain ⟨t, _, rfl⟩ := Option.map_eq_some_iff.1 hs
    exact t.spaced
  · rwa [limits_expire]
  · rwa [limits_expire]

theorem Accounted.permits {ds : List (Delivery P)} (h : r.Accounted)
    (hs : Sendable r.limits c payload) (hslots : 0 < r.limits.maxIncompleteTransfersPerPeer)
    (hroom : r.limits.Holds payload.length)
    (hsteps : EachStep (deliver hash) (Undisturbed hash peer payload
      ((originals c payload).map (originalFrame hash payload))) r ds) :
    EachStep (deliver hash) (Permits hash peer payload
      ((originals c payload).map (originalFrame hash payload))) r ds := by
  refine EachStep.of_invariant (fun _ s => s.Accounted ∧ s.limits = r.limits) ⟨h, rfl⟩ ?_ ?_ hsteps
  · rintro _ s d s' ⟨hacc, hl⟩ hd _
    cases hd
    exact ⟨hacc.accept d.peer d.frame d.now, (limits_accept _ _ _ _ _).trans hl⟩
  · rintro _ s d s' ⟨hacc, hl⟩ _ hp
    refine ⟨hp.alive, hp.genuine, hp.room, fun _ hframe => ?_⟩
    obtain ⟨q, hq, hqf⟩ := List.mem_map.1 hframe
    rw [← hqf]
    rw [← hl] at hs hslots hroom
    exact hacc.accept_ne_capacity hs hslots hroom hq d.peer d.now

/-- Fragments of one payload delivered in any order, repeated, and mixed with other frames: each is
held back or known until the last one is in, which gives the payload and leaves nothing behind. -/
theorem deliver_complete {config : FramingConfig} {overhead : Nat} {frames : List Bytes}
    {limits : ReassemblyLimits} {events : List (ReassemblyEvent P)} {ds : List (Delivery P)}
    {d : Delivery P} (hsend : sendLogicalPayload hash config overhead payload = .ok frames)
    (hfrag : 2 ≤ frames.length) (hlimits : Accommodates limits payload.length frames.length)
    (hnone : ((forIdentity limits).run hash events).transfer peer (hash payload) = none)
    (hrun : Runs (deliver hash) ((forIdentity limits).run hash events) ds r)
    (hsteps : EachStep (deliver hash) (Undisturbed hash peer payload frames)
      ((forIdentity limits).run hash events) (ds ++ [d]))
    (hpeer : d.peer = peer) (hframe : d.frame ∈ frames)
    (hopen : ∃ frame ∈ frames, frame ∉ delivered peer ds) :
    let out := r.accept hash d.peer d.frame d.now
    if d.frame ∈ delivered peer ds then out.2.outcome = .ok .duplicate
    else if ∀ frame ∈ frames, frame ∈ delivered peer (ds ++ [d]) then
      out.2.outcome = .ok (.complete payload) ∧ out.1.transfer peer (hash payload) = none
    else out.2.outcome = .ok .pending := by
  obtain ⟨c, hs, _, rfl⟩ := sendLogicalPayload_fragments hsend hfrag
  have hacc : ((forIdentity limits : Reassembler P).run hash events).Accounted :=
    (accounted_forIdentity limits).run events
  have hl : ((forIdentity limits).run hash events).limits = limits := limits_run hash _ events
  generalize (forIdentity limits).run hash events = r₀ at *
  subst hl
  have hs' : Sendable r₀.limits c payload := hlimits.sendable hs
  have hpermits := hacc.permits hs' hlimits.slots hlimits.room hsteps
  have hreceives : r₀.Receives hash peer c payload := by
    intro t ht
    rw [hnone] at ht
    cases ht
  have hgathers := Gathers.run hreceives hs' hrun hpermits.init
  rw [fragments, hnone] at hgathers
  have hlast := hpermits.last hrun rfl
  obtain ⟨q, hq, hqf⟩ := List.mem_map.1 hframe
  have hopen' : ∃ q ∈ originals c payload, ¬ Has hash peer payload [] ds q := by
    obtain ⟨frame, hf, hn⟩ := hopen
    obtain ⟨x, hx, rfl⟩ := List.mem_map.1 hf
    exact ⟨x, hx, mt has_nil.1 hn⟩
  have hstep := hgathers.own hs' hopen' hlast.alive hpeer hq hqf.symm (hlast.capacity hpeer hframe)
  have hheld := (hgathers.part hopen').2
  simp only [hheld q hq, has_nil, hqf] at hstep ⊢
  split
  · next hm =>
    rw [if_pos hm] at hstep
    exact hstep.1
  · next hm =>
    rw [if_neg hm] at hstep
    have hall : (∀ frame ∈ (originals c payload).map (originalFrame hash payload),
        frame ∈ delivered peer (ds ++ [d])) ↔
        ∀ x ∈ originals c payload, x ∈ q :: r.fragments peer (hash payload) := by
      rw [List.forall_mem_map]
      refine forall₂_congr fun x hx => ?_
      rw [← has_nil, has_snoc hs' hpeer hq hqf.symm hx, List.mem_cons, hheld x hx]
    unfold Extended at hstep
    split
    · next ha => rwa [if_pos (hall.1 ha)] at hstep
    · next ha =>
      rw [if_neg (mt hall.2 ha)] at hstep
      exact hstep.1

theorem undisturbed_of_checkAll {frames : List Bytes} {ds : List (Delivery P)}
    (h : checkAll (deliver hash) (fun r d =>
      (r.transfer peer (hash payload)).all
          (fun t => d.now - t.lastActivity < r.limits.reassemblyTtl) &&
        decide (d.frame ∈ frames) &&
        decide ((r.accept hash d.peer d.frame d.now).2.evictedTransfers = 0)) r ds = true) :
    EachStep (deliver hash) (Undisturbed hash peer payload frames) r ds := by
  refine (eachStep_of_checkAll h).imp fun r d r' h => ?_
  simp only [Bool.and_eq_true, decide_eq_true_eq] at h
  obtain ⟨⟨halive, hmem⟩, hroom⟩ := h
  refine ⟨fun t ht => ?_, fun _ _ => hmem, hroom⟩
  simpa only [ht, Option.all_some, decide_eq_true_eq] using halive

theorem deliver_complete_two_frames :
    ∃ (hash : Bytes → TransferId) (d₁ d₂ : Delivery Nat) (r : Reassembler Nat),
      Runs (deliver hash)
          (forIdentity { datagramPayloadBudget := 82 : FramingConfig }.reassemblyLimits) [d₁] r ∧
        (r.accept hash d₂.peer d₂.frame d₂.now).2.outcome =
          .ok (.complete (List.replicate 82 7)) := by
  let hash : Bytes → TransferId := fun _ => ⟨List.replicate 32 0, List.length_replicate⟩
  let config : FramingConfig := { datagramPayloadBudget := 82 }
  let r₀ : Reassembler Nat := (forIdentity config.reassemblyLimits).run hash []
  let payload : Bytes := List.replicate 82 7
  let frame (o : Nat) : Bytes := fragmentFrame (hash payload) 82 o (List.replicate 41 7)
  let d₁ : Delivery Nat := ⟨0, frame 41, 5⟩
  let d₂ : Delivery Nat := ⟨0, frame 0, 9⟩
  have hsend : sendLogicalPayload hash config 0 payload = .ok [frame 0, frame 41] := by decide
  have hrun : Runs (deliver hash) r₀ [d₁] (r₀.accept hash 0 (frame 41) 5).1 := runs_of_runAll rfl
  have hcheck : checkAll (deliver hash) (fun r d =>
      (r.transfer 0 (hash payload)).all (fun t => d.now - t.lastActivity < r.limits.reassemblyTtl) &&
        decide (d.frame ∈ [frame 0, frame 41]) &&
        decide ((r.accept hash d.peer d.frame d.now).2.evictedTransfers = 0))
      r₀ [d₁, d₂] = true := by decide
  have hsteps : EachStep (deliver hash) (Undisturbed hash 0 payload [frame 0, frame 41]) r₀
      ([d₁] ++ [d₂]) := undisturbed_of_checkAll hcheck
  have hlimits : Accommodates config.reassemblyLimits 82 2 :=
    ⟨by decide, by decide, by decide, by decide⟩
  have hnone : r₀.transfer 0 (hash payload) = none := rfl
  have h := deliver_complete hsend (by decide) hlimits hnone hrun hsteps rfl (by decide)
    ⟨frame 0, by decide, by decide⟩
  simp only at h
  rw [if_neg (by decide), if_pos (by decide)] at h
  exact ⟨hash, d₁, d₂, _, hrun, h.1⟩

def narrowLimits : List ReassemblyLimits :=
  let limits := { datagramPayloadBudget := 82 : FramingConfig }.reassemblyLimits
  [{ limits with maxLogicalMessageSize := 81 }, { limits with maxFragmentsPerMessage := 1 },
    { limits with maxIncompleteTransfersPerPeer := 0 },
    { limits with maxReassemblyBytesPerPeer := 81 }, { limits with maxTotalReassemblyBytes := 81 }]

/-- Two frames in order, with nothing evicted and nothing expired; the last one is refused. -/
theorem deliver_refused :
    let hash : Bytes → TransferId := fun _ => ⟨List.replicate 32 0, List.length_replicate⟩
    let payload : Bytes := List.replicate 82 7
    let frame (o : Nat) : Bytes := fragmentFrame (hash payload) 82 o (List.replicate 41 7)
    sendLogicalPayload hash { datagramPayloadBudget := 82 } 0 payload = .ok [frame 0, frame 41] ∧
      (∀ limits ∈ narrowLimits, EachStep (deliver hash)
        (Undisturbed hash 0 payload [frame 0, frame 41]) (forIdentity limits : Reassembler Nat)
        [⟨0, frame 0, 5⟩, ⟨0, frame 41, 9⟩]) ∧
      narrowLimits.map (fun limits =>
          let r : Reassembler Nat := forIdentity limits
          ((r.accept hash 0 (frame 0) 5).1.accept hash 0 (frame 41) 9).2.outcome) =
        [.error .logicalMessageTooLarge, .error .tooManyFragments, .error .reassemblyCapacity,
          .error .reassemblyCapacity, .error .reassemblyCapacity] := by
  intro hash payload frame
  refine ⟨by decide, fun limits hlimits => ?_, by decide +kernel⟩
  have hcheck : ∀ limits ∈ narrowLimits, checkAll (deliver hash) (fun r d =>
      (r.transfer 0 (hash payload)).all (fun t => d.now - t.lastActivity < r.limits.reassemblyTtl) &&
        decide (d.frame ∈ [frame 0, frame 41]) &&
        decide ((r.accept hash d.peer d.frame d.now).2.evictedTransfers = 0))
      (forIdentity limits : Reassembler Nat) [⟨0, frame 0, 5⟩, ⟨0, frame 41, 9⟩] = true := by
    decide +kernel
  exact undisturbed_of_checkAll (hcheck limits hlimits)

end Reassembler

end Reconcile
