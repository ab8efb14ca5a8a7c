import Mathlib.Data.List.Rotate
import Reconcile.Boundary.Datagram
import Reconcile.SignedNode

namespace Reconcile
open Lib Lib.Action
set_option autoImplicit true

theorem exists_mem_of_forall₂ {R : α → β → Prop} {l : List α} {l' : List β}
    (h : List.Forall₂ R l l') (ha : a ∈ l) : ∃ b ∈ l', R a b := by
  induction h with
  | nil => cases ha
  | @cons c d l l' hr _ ih =>
    rcases List.mem_cons.1 ha with rfl | ha
    · exact ⟨d, List.mem_cons_self, hr⟩
    · obtain ⟨b, hb, hab⟩ := ih ha
      exact ⟨b, List.mem_cons_of_mem d hb, hab⟩

namespace Ingress

variable {A : Type} {C : Primitives}

theorem sealTo_spec (i : Ingress A) (peer : PeerId) (r : Readings) (frame : Bytes) :
    (∃ b, i.boundary.Alike b ∧ (i.sealTo C peer r frame).2 = { i with boundary := b }) ∧
    (∀ d, (i.sealTo C peer r frame).1 = .ok d → i.routes.route peer = some d.destination ∧
      (i.boundary.seal C (r.call i.boundary frame)).1 = .ok d.bytes) ∧
    ∀ e, (i.sealTo C peer r frame).1 = .error e → i.routes.route peer = none ∨
      ∃ err, (i.boundary.seal C (r.call i.boundary frame)).1 = .error err := by
  have halike := Boundary.alike_seal (C := C) i.boundary (r.call i.boundary frame)
  unfold sealTo sealFrame
  cases i.routes.route peer with
  | none => exact ⟨⟨_, .refl _, rfl⟩, by rintro _ ⟨⟩, fun _ _ => .inl rfl⟩
  | some destination =>
    generalize i.boundary.seal C (r.call i.boundary frame) = sealed at halike ⊢
    obtain ⟨out, b⟩ := sealed
    cases out with
    | error err => exact ⟨⟨b, halike, rfl⟩, by rintro _ ⟨⟩, fun _ _ => .inr ⟨err, rfl⟩⟩
    | ok bytes =>
      refine ⟨⟨b, halike, rfl⟩, ?_, by rintro _ ⟨⟩⟩
      rintro _ ⟨⟩
      exact ⟨rfl, rfl⟩

end Ingress

def NodeError.isReplica : NodeError → Bool
  | .replica _ => true
  | _ => false

namespace SignedNode

variable {K V A : Type} {E : SignedSuite K V} {s s' s'' : SignedNode K V A}
  {cursors : HashMap PeerId (Option K)}

structure Configured (s : SignedNode K V A) : Prop where
  word : s.framing.maxLogicalMessageSize < 2 ^ 32
  budget : fragmentHeaderLen < s.boundary.payloadBudget
  cap : 1 ≤ s.maxFramesPerTick

/-- Only the boundary's counters, the transfers kept for recovery, and the cursors as given. -/
def Advances (s : SignedNode K V A) (cursors : HashMap PeerId (Option K))
    (s' : SignedNode K V A) : Prop :=
  ∃ boundary recovery, s.boundary.Alike boundary ∧
    s' = { s with boundary := boundary, recovery := recovery, outboundCursors := cursors }

def Emits (s s' : SignedNode K V A) : Prop := s.Advances s.outboundCursors s'

theorem Emits.refl (s : SignedNode K V A) : s.Emits s := ⟨_, _, .refl _, rfl⟩

theorem Advances.trans (h : s.Advances cursors s') (h' : s'.Advances cursors' s'') :
    s.Advances cursors' s'' := by
  obtain ⟨_, _, halike, rfl⟩ := h
  obtain ⟨_, _, halike', rfl⟩ := h'
  exact ⟨_, _, halike.trans halike', rfl⟩

theorem Emits.trans (h : s.Emits s') (h' : s'.Emits s'') : s.Emits s'' := by
  obtain ⟨_, _, halike, rfl⟩ := h
  obtain ⟨_, _, halike', rfl⟩ := h'
  exact ⟨_, _, halike.trans halike', rfl⟩

/-- A datagram that takes a frame to a peer's confirmed route, sealed by the node's boundary under
whatever counters it has then. -/
def Routed (E : SignedSuite K V) (s : SignedNode K V A) (peer : PeerId) (frame : Bytes)
    (d : RoutedDatagram A) : Prop :=
  s.routes.route peer = some d.destination ∧
    ∃ b call, s.boundary.Alike b ∧ call.frame = frame ∧ (b.seal E.primitives call).1 = .ok d.bytes

def frames (E : SignedSuite K V) (s : SignedNode K V A) (bytes : Bytes) : List Bytes :=
  if bytes.length + completeHeaderLen ≤ s.boundary.payloadBudget then [writeComplete bytes]
  else
    (originals (s.boundary.payloadBudget - fragmentHeaderLen) bytes).map fun p =>
      fragmentFrame (E.transferId bytes) bytes.length p.1 p.2

theorem Advances.routed (h : s.Advances cursors s') (hd : s'.Routed E peer frame d) :
    s.Routed E peer frame d := by
  obtain ⟨_, _, halike, rfl⟩ := h
  obtain ⟨hroute, b, call, hb, hcall⟩ := hd
  exact ⟨hroute, b, call, halike.trans hb, hcall⟩

theorem Advances.frames (h : s.Advances cursors s') (bytes : Bytes) :
    s'.frames E bytes = s.frames E bytes := by
  obtain ⟨_, _, halike, rfl⟩ := h
  simp only [SignedNode.frames, halike.payloadBudget]

theorem Advances.requiredFragments (h : s.Advances cursors s') (n : Nat) :
    s'.requiredFragments n = s.requiredFragments n := by
  obtain ⟨_, _, halike, rfl⟩ := h
  simp only [SignedNode.requiredFragments, halike.payloadBudget]

theorem Advances.configured (h : s.Advances cursors s') (hs : s.Configured) : s'.Configured := by
  obtain ⟨_, _, halike, rfl⟩ := h
  refine ⟨hs.word, ?_, hs.cap⟩
  rw [halike.payloadBudget]
  exact hs.budget

theorem Advances.payloadBudget (h : s.Advances cursors s') :
    s'.boundary.payloadBudget = s.boundary.payloadBudget := by
  obtain ⟨_, _, halike, rfl⟩ := h
  exact halike.payloadBudget

/-- The envelope writes the length of the authenticated frame in four bytes. -/
def Overlong (s : SignedNode K V A) (frame : Bytes) : Prop :=
  2 ^ 32 ≤ frame.length + s.boundary.authenticator.overhead

instance instDecidableOverlong (s : SignedNode K V A) (frame : Bytes) :
    Decidable (s.Overlong frame) :=
  inferInstanceAs (Decidable (_ ≤ _))

theorem Advances.overlong (h : s.Advances cursors s') (frame : Bytes) :
    s'.Overlong frame ↔ s.Overlong frame := by
  obtain ⟨_, _, halike, rfl⟩ := h
  rw [Overlong, halike.authenticator, Overlong]

theorem Routed.not_overlong (h : s.Routed E peer frame d) : ¬s.Overlong frame := by
  obtain ⟨_, b, call, halike, rfl, hseal⟩ := h
  have hword := (Boundary.seal_eq_ok hseal).2.2.1
  rw [Boundary.length_sealInner, halike.authenticator] at hword
  exact hword.not_ge

def Undeliverable (s : SignedNode K V A) (peer : PeerId) (frame : Bytes) : Prop :=
  s.routes.route peer = none ∨ s.boundary.payloadBudget < frame.length ∨ s.Overlong frame

theorem Advances.undeliverable (h : s.Advances cursors s') :
    s'.Undeliverable peer frame ↔ s.Undeliverable peer frame := by
  have hbudget := h.payloadBudget
  have hword := h.overlong frame
  obtain ⟨_, _, _, rfl⟩ := h
  rw [Undeliverable, hbudget, hword, Undeliverable]

theorem yields_routedFrame (s : SignedNode K V A) (peer : PeerId) (r : Readings) (frame : Bytes) :
    Yields (routedFrame E peer r frame) s (fun d s' => s.Routed E peer frame d ∧ s.Emits s')
      fun e s' => (s.Undeliverable peer frame ∧ ∃ err, e = .route err) ∧ s.Emits s' := by
  obtain ⟨⟨b, halike, hb⟩, hok, herror⟩ := s.toIngress.sealTo_spec (C := E.primitives) peer r frame
  have hemits : s.Emits { s with toIngress := (s.toIngress.sealTo E.primitives peer r frame).2 } :=
    ⟨b, s.recovery, halike, by rw [hb]⟩
  refine Yields.ofExcept ?_ ?_
  · intro d hd
    obtain ⟨hroute, hseal⟩ := hok d hd
    exact ⟨⟨hroute, s.boundary, _, .refl _, rfl, hseal⟩, hemits⟩
  · intro err herr
    refine ⟨⟨(herror err herr).imp_right ?_, err, rfl⟩, hemits⟩
    rintro ⟨e, he⟩
    by_contra hn
    rw [not_or, Nat.not_lt, Overlong, Nat.not_le] at hn
    rw [Boundary.seal_of_fits hn.2 hn.1] at he
    cases he

theorem requiredFragments_ok (hs : s.Configured) (h : s.requiredFragments n = .ok count) :
    n ≤ s.framing.maxLogicalMessageSize ∧ count ≤ s.maxFramesPerTick ∧
      ((n + completeHeaderLen ≤ s.boundary.payloadBudget ∧ count = 1) ∨
        (¬n + completeHeaderLen ≤ s.boundary.payloadBudget ∧ count ≠ 1 ∧
          count = (n + (s.boundary.payloadBudget - fragmentHeaderLen) - 1) /
            (s.boundary.payloadBudget - fragmentHeaderLen))) := by
  have hbudget := hs.budget
  unfold requiredFragments at h
  split at h
  · cases h
  next hsize =>
  split at h
  · next hfits =>
    cases h
    exact ⟨Nat.le_of_not_lt hsize, hs.cap, .inl ⟨hfits, rfl⟩⟩
  next hfits =>
  simp only at h
  split at h
  · cases h
  next hcount =>
  cases h
  refine ⟨Nat.le_of_not_lt hsize, by omega, .inr ⟨hfits, ?_, rfl⟩⟩
  -- the whole encoding is longer than one fragment
  have htwo : 2 ≤ (n + (s.boundary.payloadBudget - fragmentHeaderLen) - 1) /
      (s.boundary.payloadBudget - fragmentHeaderLen) := by
    rw [Nat.le_div_iff_mul_le (by omega)]
    unfold completeHeaderLen at hfits
    unfold fragmentHeaderLen at hbudget ⊢
    omega
  omega

theorem length_frames (hs : s.Configured)
    (h : s.requiredFragments bytes.length = .ok count) :
    (s.frames E bytes).length = count ∧
      ∀ frame ∈ s.frames E bytes, frame.length ≤ s.boundary.payloadBudget := by
  have hbudget := hs.budget
  obtain ⟨_, _, ⟨hfits, rfl⟩ | ⟨hfits, _, rfl⟩⟩ := requiredFragments_ok hs h
  · rw [frames, if_pos hfits]
    refine ⟨rfl, fun frame hframe => ?_⟩
    rw [List.mem_singleton.1 hframe]
    exact hfits
  · rw [frames, if_neg hfits, List.length_map, originals, Pieces.length_cut]
    refine ⟨rfl, fun frame hframe => ?_⟩
    obtain ⟨p, hp, rfl⟩ := List.mem_map.1 hframe
    have hlen := Pieces.length_le_of_mem_cut (by omega) hp
    rw [fragmentFrame_length]
    omega

def Fails (E : SignedSuite K V) (s : SignedNode K V A) (peer : PeerId) (bytes : Bytes)
    (e : NodeError) : Prop :=
  (∃ err, s.requiredFragments bytes.length = .error err ∧ e = .replica err) ∨
    (e.isReplica = false ∧ (∃ n, s.requiredFragments bytes.length = .ok n) ∧
      (s.routes.route peer = none ∨ ∃ frame ∈ s.frames E bytes, s.Overlong frame))

theorem Advances.fails (h : s.Advances cursors s') (hf : s'.Fails E peer bytes e) :
    s.Fails E peer bytes e := by
  simp only [Fails, h.requiredFragments, h.frames, h.overlong] at hf
  obtain ⟨_, _, _, rfl⟩ := h
  exact hf

theorem Undeliverable.fails (h : s.Undeliverable peer frame) (hs : s.Configured)
    (hcount : s.requiredFragments bytes.length = .ok n) (hin : frame ∈ s.frames E bytes)
    (err : SignedRouteError) : s.Fails E peer bytes (.route err) := by
  have hfits := (length_frames hs hcount).2 frame hin
  exact .inr ⟨rfl, ⟨n, hcount⟩,
    h.imp_right fun h => ⟨frame, hin, h.resolve_left (Nat.not_lt.2 hfits)⟩⟩

theorem yields_routedFragment (s : SignedNode K V A) (peer : PeerId) (r : Readings)
    (id : TransferId) (hword : totalLen < 2 ^ 32) (hoffset : piece.1 < 2 ^ 32) :
    Yields (routedFragment E peer r id totalLen piece) s
      (fun d s' => s.Routed E peer (fragmentFrame id totalLen piece.1 piece.2) d ∧ s.Emits s')
      fun e s' => (s.Undeliverable peer (fragmentFrame id totalLen piece.1 piece.2) ∧
        ∃ err, e = .route err) ∧ s.Emits s' := by
  have hwrite : writeFragment id totalLen piece.1 piece.2 =
      .ok (fragmentFrame id totalLen piece.1 piece.2) := by
    rw [writeFragment, if_neg hword.not_ge, if_neg hoffset.not_ge]
  unfold routedFragment
  rw [hwrite]
  exact s.yields_routedFrame peer r _

theorem emits_retainTransfer (peer : PeerId) (id : TransferId) (bytes : Bytes) (now : Nat)
    (s : SignedNode K V A) : s.Emits (s.retainTransfer peer id bytes now) := by
  unfold retainTransfer
  split
  · exact ⟨_, _, .refl _, rfl⟩
  · exact .refl s

theorem yields_sendEncoded (hs : s.Configured) (peer : PeerId) (bytes : Bytes) (r : Readings) :
    Yields (sendEncoded E peer bytes r) s
      (fun ds s' => (s.requiredFragments bytes.length = .ok ds.length ∧
        List.Forall₂ (s.Routed E peer) (s.frames E bytes) ds) ∧ s.Emits s')
      fun e s' => s.Fails E peer bytes e ∧ s.Emits s' := by
  have hword := hs.word
  have hbudget := hs.budget
  refine Yields.ofExcept_bind (fun count hcount => ?_) fun err h => ⟨.inl ⟨err, h, rfl⟩, .refl s⟩
  have hlen := (length_frames (E := E) hs hcount).1
  obtain ⟨hsize, _, ⟨hfits, rfl⟩ | ⟨hfits, hone, _⟩⟩ := requiredFragments_ok hs hcount
  · have hframes : s.frames E bytes = [writeComplete bytes] := if_pos hfits
    have hin : writeComplete bytes ∈ s.frames E bytes := hframes ▸ List.mem_cons_self
    rw [if_pos rfl]
    refine Yields.bind (Yields.imp (s.yields_routedFrame peer r _) (fun _ _ h => h) ?_) ?_
    · rintro _ s' ⟨⟨hu, err, rfl⟩, hemits⟩
      exact ⟨hu.fails hs hcount hin err, hemits⟩
    · rintro d s' ⟨hd, hemits⟩
      rw [hframes]
      exact .pure ⟨⟨hcount, .cons hd .nil⟩, hemits⟩
  · rw [if_neg hone]
    have hframes : s.frames E bytes = (originals (s.boundary.payloadBudget - fragmentHeaderLen)
      bytes).map fun p => fragmentFrame (E.transferId bytes) bytes.length p.1 p.2 := if_neg hfits
    rw [hframes] at hlen
    refine .modify_bind (.imp (.mapM (I := s.Emits) (S := fun p => s.Routed E peer (fragmentFrame
      (E.transferId bytes) bytes.length p.1 p.2)) ?_ (emits_retainTransfer peer _ bytes r.now s)) ?_
      fun _ _ h => h)
    · intro p hp t ht
      have hend := ((Pieces.cut_spaced (by omega) 0 bytes).mem hp).2.2
      have hin : fragmentFrame (E.transferId bytes) bytes.length p.1 p.2 ∈ s.frames E bytes :=
        hframes ▸ List.mem_map_of_mem hp
      refine (t.yields_routedFragment peer r _ (by omega) (by omega)).imp ?_ ?_
      · rintro d s' ⟨hd, hemits⟩
        exact ⟨ht.routed hd, ht.trans hemits⟩
      · rintro _ s' ⟨⟨hu, err, rfl⟩, hemits⟩
        exact ⟨(ht.undeliverable.1 hu).fails hs hcount hin err, ht.trans hemits⟩
    · rintro ds s' ⟨hds, hemits⟩
      have hrouted := List.forall₂_map_left_iff.2 hds
      rw [hcount, hframes, ← hlen, hrouted.length_eq]
      exact ⟨⟨rfl, hrouted⟩, hemits⟩

def hasRoute (s : SignedNode K V A) (peer : PeerId) : Bool := (s.routes.route peer).isSome

def Reports (E : SignedSuite K V) (s : SignedNode K V A) (request : MissingRequest PeerId)
    (d : RoutedDatagram A) : Prop :=
  ∃ frame, writeMissingReport request.transferId request.ranges = .ok frame ∧
    s.Routed E request.peer frame d

theorem Advances.reports (h : s.Advances cursors s') (hd : s'.Reports E request d) :
    s.Reports E request d := by
  obtain ⟨frame, hframe, hrouted⟩ := hd
  exact ⟨frame, hframe, h.routed hrouted⟩

def Unreportable (s : SignedNode K V A) (request : MissingRequest PeerId) : Prop :=
  s.hasRoute request.peer = true ∧
    ∀ frame, writeMissingReport request.transferId request.ranges = .ok frame →
      s.Undeliverable request.peer frame

theorem Advances.hasRoute (h : s.Advances cursors s') : s'.hasRoute = s.hasRoute := by
  obtain ⟨_, _, _, rfl⟩ := h
  rfl

theorem Advances.maxFramesPerTick (h : s.Advances cursors s') :
    s'.maxFramesPerTick = s.maxFramesPerTick := by
  obtain ⟨_, _, _, rfl⟩ := h
  rfl

theorem Advances.unreportable (h : s.Advances cursors s') (hu : s'.Unreportable request) :
    s.Unreportable request := by
  obtain ⟨hroute, hframe⟩ := hu
  exact ⟨h.hasRoute ▸ hroute, fun frame hok => h.undeliverable.1 (hframe frame hok)⟩

/-- The loop reports for the peers that have a route, in order, until the tick's frames are out. -/
theorem yields_requestLoop (s : SignedNode K V A) (r : Readings)
    (requests : List (MissingRequest PeerId)) (sent : Nat) :
    Yields (requestLoop E r requests sent) s
      (fun ds s' => List.Forall₂ (s.Reports E) ((requests.filter (s.hasRoute ·.peer)).take
        (max (s.maxFramesPerTick - sent) 1)) ds ∧ s.Emits s')
      fun e s' => (e.isReplica = false ∧ ∃ request ∈ requests, s.Unreportable request) ∧
        s.Emits s' := by
  induction requests generalizing s sent with
  | nil =>
    rw [List.filter_nil, List.take_nil]
    exact .pure ⟨.nil, .refl s⟩
  | cons request requests ih =>
    refine .get_bind ?_
    split
    · next hnone =>
      have hroute : s.hasRoute request.peer = false := by
        rw [hasRoute, Option.isNone_iff_eq_none.1 hnone, Option.isSome_none]
      rw [List.filter_cons, if_neg (by rw [hroute]; exact Bool.false_ne_true)]
      refine (ih s sent).imp (fun _ _ h => h) ?_
      rintro e s' ⟨⟨he, request, hin, hu⟩, hemits⟩
      exact ⟨⟨he, request, List.mem_cons_of_mem _ hin, hu⟩, hemits⟩
    next hsome =>
    have hroute : s.hasRoute request.peer = true := by
      rw [hasRoute, ← Option.not_isNone, Bool.not_eq_true', Bool.eq_false_iff]
      exact hsome
    rw [List.filter_cons, if_pos hroute]
    refine .ofExcept_bind (fun frame hframe => ?_) fun err herr => ?_
    swap
    · refine ⟨⟨rfl, request, List.mem_cons_self, hroute, fun frame hframe => ?_⟩, .refl s⟩
      cases hframe.symm.trans herr
    refine .bind (.imp (s.yields_routedFrame request.peer r frame) (fun _ _ h => h) ?_) ?_
    · rintro _ s' ⟨⟨hu, err, rfl⟩, hemits⟩
      refine ⟨⟨rfl, request, List.mem_cons_self, hroute, fun frame' hframe' => ?_⟩, hemits⟩
      cases hframe.symm.trans hframe'
      exact hu
    rintro d t ⟨hd, ht⟩
    split
    · next hcap =>
      rw [Nat.max_eq_right (by omega), List.take_succ_cons, List.take_zero]
      exact .pure ⟨.cons ⟨frame, hframe, hd⟩ .nil, ht⟩
    · next hcap =>
      have hleft : max (s.maxFramesPerTick - sent) 1 =
          max (s.maxFramesPerTick - (sent + 1)) 1 + 1 := by omega
      refine .bind (.imp (ih t (sent + 1)) (fun _ _ h => h) ?_) ?_
      · rintro e s' ⟨⟨he, request, hin, hu⟩, hemits⟩
        exact ⟨⟨he, request, List.mem_cons_of_mem _ hin, ht.unreportable hu⟩, ht.trans hemits⟩
      rintro ds s' ⟨hds, hemits⟩
      rw [ht.maxFramesPerTick, ht.hasRoute] at hds
      rw [hleft, List.take_succ_cons]
      exact .pure ⟨.cons ⟨frame, hframe, hd⟩ (hds.imp fun _ _ h => ht.reports h), ht.trans hemits⟩

def polled (s : SignedNode K V A) (now : Nat) :
    Reassembler PeerId × List (MissingRequest PeerId) :=
  let r := (s.reassembler.expire now).1
  if s.framing.selectiveRecovery then
    r.pollIdleMissing now 2000 3000 (maxMissingRangesForBudget s.boundary.payloadBudget 0
      s.framing.maxMissingRangesPerReport) 16
  else (r, [])

def polling (s : SignedNode K V A) (now : Nat) : SignedNode K V A :=
  { s with
    reassembler := (s.polled now).1
    recovery := s.recovery.expire now s.framing }

theorem retryMissing_eq (s : SignedNode K V A) (r : Readings) :
    retryMissing E r (s.expireTransfers r.now) =
      requestLoop E r (s.polled r.now).2 0 (s.polling r.now) := by
  unfold retryMissing polling polled
  change (if s.framing.selectiveRecovery = true then _ else _ : NodeM K V A _)
    (s.expireTransfers r.now) = _
  split <;> rfl

abbrev Service (K V : Type) : Type := PeerId × K × Entry Timestamp V

def Service.bytes (E : SignedSuite K V) (x : Service K V) : Bytes :=
  E.serialize (.update x.2.1 x.2.2)

def advance (cursors : HashMap PeerId (Option K)) (served : List (Service K V)) :
    HashMap PeerId (Option K) :=
  served.foldl (fun m x => m.insert x.1 (some x.2.1)) cursors

def Carries (E : SignedSuite K V) (s : SignedNode K V A) (x : Service K V)
    (ds : List (RoutedDatagram A)) : Prop :=
  List.Forall₂ (s.Routed E x.1) (s.frames E (x.bytes E)) ds

theorem Advances.carries (h : s.Advances cursors s') {x : Service K V} (hd : s'.Carries E x ds) :
    s.Carries E x ds := by
  rw [Carries, h.frames] at hd
  exact hd.imp fun _ _ => h.routed

variable [LinearOrder K]

/-- The entry fits the framing limits, and each of its frames an envelope. -/
def Deliverable (E : SignedSuite K V) (s : SignedNode K V A) (key : K) (entry : Entry Timestamp V) :
    Prop :=
  s.ensureEntryFits E key entry = .ok () ∧
    ∀ frame ∈ s.frames E (E.serialize (.update key entry)), ¬s.Overlong frame

omit [LinearOrder K] in
instance instDecidableDeliverable (s : SignedNode K V A) (key : K) (entry : Entry Timestamp V) :
    Decidable (s.Deliverable E key entry) :=
  inferInstanceAs (Decidable (_ ∧ _))

/-- What the loop over the peers served: a part of them from the front, each with its next entry. -/
structure Serves (E : SignedSuite K V) (s : SignedNode K V A) (peers : List PeerId)
    (served : List (Service K V)) (s' : SignedNode K V A) : Prop where
  front : served.map Prod.fst <+: peers
  next : ∀ x ∈ served, s.nextEntry x.1 = some x.2
  deliverable : ∀ x ∈ served, s.Deliverable E x.2.1 x.2.2
  advances : s.Advances (advance s.outboundCursors served) s'

theorem Serves.nil (peers : List PeerId) (h : s.Emits s') : s.Serves E peers [] s' :=
  ⟨List.nil_prefix, by rintro _ ⟨⟩, by rintro _ ⟨⟩, h⟩

omit [LinearOrder K] in
theorem Advances.ensureEntryFits (h : s.Advances cursors s') :
    s'.ensureEntryFits E = s.ensureEntryFits E := by
  funext key entry
  rw [SignedNode.ensureEntryFits, h.requiredFragments, SignedNode.ensureEntryFits]

omit [LinearOrder K] in
theorem Advances.deliverable (h : s.Advances cursors s') (key : K) (entry : Entry Timestamp V) :
    s'.Deliverable E key entry ↔ s.Deliverable E key entry := by
  simp only [Deliverable, h.ensureEntryFits, h.frames, h.overlong]

/-- Where another peer's cursor moves does not matter to a peer's next entry. -/
theorem Advances.nextEntry (h : s.Advances (s.outboundCursors.insert peer c) s')
    (hne : q ≠ peer) : s'.nextEntry q = s.nextEntry q := by
  obtain ⟨_, _, _, rfl⟩ := h
  simp only [SignedNode.nextEntry, AList.lookup_insert_ne hne]

theorem Serves.cons {next : K × Entry Timestamp V} {served : List (Service K V)}
    (hnext : s.nextEntry peer = some next) (hsent : s.Deliverable E next.1 next.2)
    (ht : s.Advances (s.outboundCursors.insert peer (some next.1)) t) (hn : peer ∉ peers)
    (h : t.Serves E peers served s') : s.Serves E (peer :: peers) ((peer, next) :: served) s' := by
  refine ⟨?_, ?_, ?_, ?_⟩
  · rw [List.map_cons]
    exact (List.prefix_cons_inj peer).2 h.front
  · intro x hx
    rcases List.mem_cons.1 hx with rfl | hx
    · exact hnext
    · have hin : x.1 ∈ peers := h.front.subset (List.mem_map_of_mem hx)
      rw [← h.next x hx, ht.nextEntry (ne_of_mem_of_not_mem hin hn)]
  · intro x hx
    rcases List.mem_cons.1 hx with rfl | hx
    · exact hsent
    · exact (ht.deliverable _ _).1 (h.deliverable x hx)
  · have hcursors : t.outboundCursors = s.outboundCursors.insert peer (some next.1) := by
      obtain ⟨_, _, _, rfl⟩ := ht
      rfl
    have hadvances := h.advances
    rw [hcursors] at hadvances
    exact ht.trans hadvances

/-- A loop that returns: the datagrams of what it served, within the tick's frames, and nothing
served only when the first peer's entry has no room. -/
structure Updated (E : SignedSuite K V) (s : SignedNode K V A) (peers : List PeerId) (sent : Nat)
    (served : List (Service K V)) (out : List (RoutedDatagram A)) (s' : SignedNode K V A) :
    Prop where
  serves : s.Serves E peers served s'
  carried : ∃ blocks, out = blocks.flatten ∧ List.Forall₂ (s.Carries E) served blocks
  within : sent ≤ s.maxFramesPerTick → sent + out.length ≤ s.maxFramesPerTick
  first : served = [] → ∀ peer ∈ peers.head?, ∀ next, s.nextEntry peer = some next →
    ∃ n, s.requiredFragments (Service.bytes E (peer, next)).length = .ok n ∧
      s.maxFramesPerTick < sent + n

structure Interrupted (E : SignedSuite K V) (s : SignedNode K V A) (peers : List PeerId)
    (served : List (Service K V)) (e : NodeError) (s' : SignedNode K V A) : Prop where
  serves : s.Serves E peers served s'
  failed : ∃ peer next, served.map Prod.fst ++ [peer] <+: peers ∧ s.nextEntry peer = some next ∧
    s.Fails E peer (Service.bytes E (peer, next)) e

theorem yields_updateLoop (hs : s.Configured) (r : Readings) (hpeers : peers.Nodup) (sent : Nat) :
    Yields (updateLoop E r peers sent) s
      (fun out s' => ∃ served, s.Updated E peers sent served out s')
      fun e s' => ∃ served, s.Interrupted E peers served e s' := by
  induction peers generalizing s sent with
  | nil =>
    refine .pure ⟨[], .nil _ (.refl s), ⟨[], rfl, .nil⟩, fun h => h, ?_⟩
    rintro _ _ ⟨⟩
  | cons peer peers ih =>
    obtain ⟨hn, hpeers⟩ := List.nodup_cons.1 hpeers
    have hstop (hfirst : ∀ next, s.nextEntry peer = some next → ∃ n,
        s.requiredFragments (Service.bytes E (peer, next)).length = .ok n ∧
          s.maxFramesPerTick < sent + n) : s.Updated E (peer :: peers) sent [] [] s := by
      refine ⟨.nil _ (.refl s), ⟨[], rfl, .nil⟩, fun h => h, ?_⟩
      rintro _ _ ⟨⟩
      exact hfirst
    refine .get_bind ?_
    split
    · next hnext =>
      refine .pure ⟨[], hstop ?_⟩
      rw [hnext]
      rintro _ ⟨⟩
    next key entry hnext =>
    refine .ofExcept_bind (fun n hcount => ?_) fun err herr => ?_
    · split
      · next hroom =>
        refine .pure ⟨[], hstop ?_⟩
        rw [hnext]
        rintro _ ⟨⟩
        exact ⟨n, hcount, hroom⟩
      next hroom =>
      refine .bind (.imp (yields_sendEncoded hs peer _ r) (fun _ _ h => h) ?_) ?_
      · rintro e t ⟨hfails, ht⟩
        exact ⟨[], .nil _ ht, peer, _, ⟨peers, rfl⟩, hnext, hfails⟩
      rintro ds t ⟨⟨hlen, hds⟩, ht⟩
      -- the peer stands at its entry for the rest of the loop
      have hmoved : s.Advances (s.outboundCursors.insert peer (some key))
          { t with outboundCursors := t.outboundCursors.insert peer (some key) } := by
        obtain ⟨b, recovery, halike, rfl⟩ := ht
        exact ⟨b, recovery, halike, rfl⟩
      have hcap := hmoved.maxFramesPerTick
      have hsent : s.Deliverable E key entry := by
        refine ⟨by rw [SignedNode.ensureEntryFits, hcount]; rfl, fun frame hframe => ?_⟩
        obtain ⟨d, _, hd⟩ := exists_mem_of_forall₂ hds hframe
        exact hd.not_overlong
      cases hcount.symm.trans hlen
      refine .modify_bind (.bind (.imp (ih (hmoved.configured hs) hpeers (sent + ds.length))
        (fun _ _ h => h) ?_) ?_)
      · rintro e s' ⟨served, hserves, q, next, hfront, hq, hfails⟩
        have hin : q ∈ peers := hfront.subset (List.mem_append_right _ List.mem_cons_self)
        rw [hmoved.nextEntry (ne_of_mem_of_not_mem hin hn)] at hq
        exact ⟨(peer, key, entry) :: served, .cons hnext hsent hmoved hn hserves, q, next,
          (List.prefix_cons_inj peer).2 hfront, hq, hmoved.fails hfails⟩
      · rintro rest s' ⟨served, hserves, ⟨blocks, rfl, hblocks⟩, hwithin, _⟩
        refine .pure ⟨(peer, key, entry) :: served, .cons hnext hsent hmoved hn hserves,
          ⟨ds :: blocks, rfl, .cons hds (hblocks.imp fun _ _ => hmoved.carries)⟩, ?_,
          by rintro ⟨⟩⟩
        intro _
        rw [hcap] at hwithin
        rw [List.length_append]
        omega
    · exact ⟨[], .nil _ (.refl s), peer, _, ⟨peers, rfl⟩, hnext, .inl ⟨err, herr, rfl⟩⟩

theorem Emits.nextEntry (h : s.Emits s') (peer : PeerId) : s'.nextEntry peer = s.nextEntry peer := by
  obtain ⟨_, _, _, rfl⟩ := h
  rfl

theorem Emits.serves (h : s.Emits t) {served : List (Service K V)}
    (ht : t.Serves E peers served s') : s.Serves E peers served s' := by
  refine ⟨ht.front, fun x hx => ?_, fun x hx => ?_, ?_⟩
  · rw [← h.nextEntry]
    exact ht.next x hx
  · exact (h.deliverable _ _).1 (ht.deliverable x hx)
  · have hadvances := ht.advances
    obtain ⟨b, recovery, halike, rfl⟩ := h
    exact Advances.trans ⟨b, recovery, halike, rfl⟩ hadvances

theorem Emits.updated (h : s.Emits t) {served : List (Service K V)}
    (ht : t.Updated E peers sent served out s') : s.Updated E peers sent served out s' := by
  obtain ⟨hserves, ⟨blocks, hout, hblocks⟩, hwithin, hfirst⟩ := ht
  simp only [h.maxFramesPerTick, h.nextEntry, h.requiredFragments] at hwithin hfirst
  exact ⟨h.serves hserves, ⟨blocks, hout, hblocks.imp fun _ _ => h.carries⟩, hwithin, hfirst⟩

theorem Emits.interrupted (h : s.Emits t) {served : List (Service K V)}
    (ht : t.Interrupted E peers served e s') : s.Interrupted E peers served e s' := by
  obtain ⟨hserves, peer, next, hfront, hnext, hfails⟩ := ht
  rw [h.nextEntry] at hnext
  exact ⟨h.serves hserves, peer, next, hfront, hnext, h.fails hfails⟩

def rotation (s : SignedNode K V A) : List PeerId :=
  s.routes.confirmedPeers.rotate (s.nextPeerIndex % s.routes.confirmedPeers.length)

/-- A tick that has sent this much goes on to no update. -/
def Rests (s : SignedNode K V A) (sent : Nat) : Prop :=
  s.readOnly ∨ s.maxFramesPerTick ≤ sent ∨ s.routes.confirmedPeers.isEmpty ∨
    s.entries.entries.isEmpty

def turning (s : SignedNode K V A) (now : Nat) : SignedNode K V A :=
  { s.polling now with nextPeerIndex := (s.nextPeerIndex + 1) % 2 ^ 64 }

/-- The requests that a tick answers to: those of peers with a route, as far as its frames go. -/
def reported (s : SignedNode K V A) (now : Nat) : List (MissingRequest PeerId) :=
  ((s.polled now).2.filter (s.hasRoute ·.peer)).take (max s.maxFramesPerTick 1)

/-- What a tick returns: its reports, and then its updates unless it rests. -/
inductive Ticked (E : SignedSuite K V) (s : SignedNode K V A) (now : Nat) :
    List (RoutedDatagram A) → SignedNode K V A → Prop where
  | rests (hreports : List.Forall₂ (s.Reports E) (s.reported now) reports)
    (hrests : s.Rests reports.length) (hemits : (s.polling now).Emits t) : Ticked E s now reports t
  | serves (hreports : List.Forall₂ (s.Reports E) (s.reported now) reports)
    (hrests : ¬s.Rests reports.length)
    (hupdated : (s.turning now).Updated E s.rotation reports.length served updates t) :
    Ticked E s now (reports ++ updates) t

/-- Why a tick fails: a report it could not send, or the entry of a peer. -/
inductive TickFails (E : SignedSuite K V) (s : SignedNode K V A) (now : Nat) :
    NodeError → SignedNode K V A → Prop where
  | report (he : e.isReplica = false) (hpolled : ∃ request ∈ (s.polled now).2, s.Unreportable request)
    (hemits : (s.polling now).Emits t) : TickFails E s now e t
  | update (hreports : List.Forall₂ (s.Reports E) (s.reported now) reports)
    (hrests : ¬s.Rests reports.length)
    (hinterrupted : (s.turning now).Interrupted E s.rotation served e t) : TickFails E s now e t

theorem yields_reconcile (hs : s.Configured) (hpeers : s.routes.confirmedPeers.Nodup)
    (r : Readings) : Yields (reconcile E r) s (s.Ticked E r.now) (s.TickFails E r.now) := by
  have hretry : Yields (retryMissing E r) (s.expireTransfers r.now)
      (fun reports t => List.Forall₂ (s.Reports E) (s.reported r.now) reports ∧
        (s.polling r.now).Emits t) (s.TickFails E r.now) := by
    unfold Yields
    rw [retryMissing_eq]
    exact ((s.polling r.now).yields_requestLoop r _ 0).imp (fun _ _ h => h) fun _ _ h =>
      .report h.1.1 h.1.2 h.2
  refine .modify_bind (hretry.bind ?_)
  rintro reports t ⟨hreports, ht⟩
  refine .get_bind ?_
  have hrests : (t.readOnly ∨ t.maxFramesPerTick ≤ reports.length ∨
      t.routes.confirmedPeers.isEmpty ∨ t.entries.entries.isEmpty) ↔ s.Rests reports.length := by
    obtain ⟨_, _, _, rfl⟩ := ht
    rfl
  have hturn : (s.turning r.now).Emits
      { t with nextPeerIndex := (t.nextPeerIndex + 1) % 2 ^ 64 } := by
    obtain ⟨b, recovery, halike, rfl⟩ := ht
    exact ⟨b, recovery, halike, rfl⟩
  have hrotation : t.routes.confirmedPeers.rotate
      (t.nextPeerIndex % t.routes.confirmedPeers.length) = s.rotation := by
    obtain ⟨_, _, _, rfl⟩ := ht
    rfl
  simp only
  split
  · next hr => exact .pure (.rests hreports (hrests.1 hr) ht)
  next hr =>
  rw [hrests] at hr
  rw [hrotation]
  have hconfigured : (s.turning r.now).Configured := ⟨hs.word, hs.budget, hs.cap⟩
  refine .modify_bind (.bind (.imp (yields_updateLoop (hturn.configured hconfigured) r
    (List.nodup_rotate.2 hpeers) reports.length) (fun _ _ h => h) ?_) ?_)
  · rintro e s' ⟨served, h⟩
    exact .update hreports hr (hturn.interrupted h)
  · rintro updates s' ⟨served, h⟩
    exact .pure (.serves hreports hr (hturn.updated h))

end SignedNode

end Reconcile
