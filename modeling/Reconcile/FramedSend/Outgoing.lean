import Reconcile.FramedSend.Origin

namespace Reconcile
open Lib Replay
set_option autoImplicit true

namespace MessageCodec

variable {M : Type} {codec : MessageCodec M} {Q Q' : M → Prop}

/-- The payload encodes messages that satisfy `Q`. -/
def Speaks (codec : MessageCodec M) (Q : M → Prop) (payload : Bytes) : Prop :=
  ∃ messages, payload = codec.encodeAll messages ∧ ∀ m ∈ messages, Q m

theorem Speaks.mono (h : codec.Speaks Q payload) (hQ : ∀ m, Q m → Q' m) :
    codec.Speaks Q' payload := by
  obtain ⟨messages, he, hm⟩ := h
  exact ⟨messages, he, fun m hin => hQ m (hm m hin)⟩

theorem Speaks.append (h : codec.Speaks Q payload) (h' : codec.Speaks Q payload') :
    codec.Speaks Q (payload ++ payload') := by
  obtain ⟨messages, rfl, hm⟩ := h
  obtain ⟨messages', rfl, hm'⟩ := h'
  refine ⟨messages ++ messages', List.flatMap_append.symm, ?_⟩
  intro m hin
  rcases List.mem_append.1 hin with hin | hin
  · exact hm m hin
  · exact hm' m hin

theorem speaks_encodeAll (h : ∀ m ∈ messages, Q m) : codec.Speaks Q (codec.encodeAll messages) :=
  ⟨messages, rfl, h⟩

theorem Speaks.decodeStream (h : codec.Speaks Q payload)
    (hd : codec.decodeStream n payload = .ok messages) : ∀ m ∈ messages, Q m := by
  obtain ⟨sent, rfl, hm⟩ := h
  rw [decodeStream_encodeAll] at hd
  cases hd
  exact fun m hin => hm m (List.mem_of_mem_take hin)

end MessageCodec

structure DecodedDatagram.From (Q : Message K V S A → Prop) (d : DecodedDatagram K V A) : Prop where
  datedRanges : ∀ segment ∈ d.datedRanges, Q (.entryFingerprint segment)
  datedUpdates : ∀ kv ∈ d.datedUpdates, Q (.entryUpdate kv.1 kv.2)
  tombstoneAcks : ∀ ack ∈ d.tombstoneAcks, Q (.tombstoneAck ack.1 ack.2)
  convergenceAck : d.sawConvergenceAck = true → Q .convergenceAck

theorem DecodedDatagram.From.push {Q : Message K V S A → Prop} {d : DecodedDatagram K V A}
    (h : d.From Q) {m : Message K V S A} (hm : Q m) : (d.push m).From Q := by
  cases m with
  | entryFingerprint segment =>
    refine ⟨?_, h.datedUpdates, h.tombstoneAcks, h.convergenceAck⟩
    intro s hs
    rcases List.mem_append.1 hs with hs | hs
    · exact h.datedRanges s hs
    · rw [List.mem_singleton.1 hs]
      exact hm
  | entryUpdate key entry =>
    refine ⟨h.datedRanges, ?_, h.tombstoneAcks, h.convergenceAck⟩
    intro kv hkv
    rcases List.mem_append.1 hkv with hkv | hkv
    · exact h.datedUpdates kv hkv
    · rw [List.mem_singleton.1 hkv]
      exact hm
  | tombstoneAck key version =>
    refine ⟨h.datedRanges, h.datedUpdates, ?_, h.convergenceAck⟩
    intro ack hack
    rcases List.mem_append.1 hack with hack | hack
    · exact h.tombstoneAcks ack hack
    · rw [List.mem_singleton.1 hack]
      exact hm
  | stateFingerprint segment =>
    exact ⟨h.datedRanges, h.datedUpdates, h.tombstoneAcks, h.convergenceAck⟩
  | stateUpdate key state => exact h
  | convergenceAck => exact ⟨h.datedRanges, h.datedUpdates, h.tombstoneAcks, fun _ => hm⟩
  | reserved6 payload =>
    exact ⟨h.datedRanges, h.datedUpdates, h.tombstoneAcks, h.convergenceAck⟩

theorem decodeDatagram_from {codec : MessageCodec (Message K V S A)} {Q : Message K V S A → Prop}
    (h : codec.Speaks Q payload) (hd : decodeDatagram codec payload = some batch) :
    batch.From Q := by
  unfold decodeDatagram at hd
  split at hd
  · next messages hmessages =>
    cases hd
    have hall := h.decodeStream hmessages
    have hloop : ∀ (messages : List (Message K V S A)) (d : DecodedDatagram K V A),
        (∀ m ∈ messages, Q m) → d.From Q → (messages.foldl DecodedDatagram.push d).From Q := by
      intro messages
      induction messages with
      | nil => exact fun d _ hd => hd
      | cons m messages ih =>
        intro d hm hd
        exact ih _ (fun m' hm' => hm m' (List.mem_cons_of_mem m hm'))
          (hd.push (hm m List.mem_cons_self))
    exact hloop messages {} hall ⟨nofun, nofun, nofun, nofun⟩
  · cases hd

/-- What a task has to send to one peer: messages to pack, one control batch, or a payload that is
encoded already and kept in no recovery book. -/
inductive Outgoing (M : Type) where
  | messages (messages : List M)
  | control (messages : List M)
  | encoded (payload : Bytes)

structure HandedOver (P : Type) where
  recovery : RecoveryBook P
  payloads : List Bytes
  frames : List Bytes

section Outgoing

variable {K V S A : Type} {codec : MessageCodec (Message K V S A)}

def Outgoing.Says (outgoing : Outgoing (Message K V S A)) (codec : MessageCodec (Message K V S A))
    (Q : Message K V S A → Prop) : Prop :=
  match outgoing with
  | .messages batch | .control batch => ∀ m ∈ batch, Q m
  | .encoded payload => codec.Speaks Q payload

theorem Outgoing.Says.mono {Q Q' : Message K V S A → Prop} {outgoing : Outgoing (Message K V S A)}
    (h : outgoing.Says codec Q) (hQ : ∀ m, Q m → Q' m) : outgoing.Says codec Q' := by
  cases outgoing with
  | messages messages => exact fun m hm => hQ m (h m hm)
  | control messages => exact fun m hm => hQ m (h m hm)
  | encoded payload => exact MessageCodec.Speaks.mono h hQ

theorem speaks_appendCapability {Q : Message K V S A → Prop} (hQ : ∀ bytes, Q (.reserved6 bytes))
    (h : codec.Speaks Q payload) (config : FramingConfig) :
    codec.Speaks Q (appendCapability codec config payload) := by
  unfold appendCapability
  split
  · refine h.append ⟨[_], (List.append_nil _).symm, ?_⟩
    intro m hm
    rw [List.mem_singleton.1 hm]
    exact hQ _
  · exact h

theorem speaks_controlBatch {Q : Message K V S A → Prop} (hQ : ∀ bytes, Q (.reserved6 bytes))
    (h : ∀ m ∈ messages, Q m) (config : FramingConfig) :
    codec.Speaks Q (controlBatch codec config messages) := by
  have hloop : ∀ out, codec.Speaks Q out →
      codec.Speaks Q (messages.foldl (fun out m => out ++ codec.encode m) out) := by
    induction messages with
    | nil => exact fun out hout => hout
    | cons m messages ih =>
      intro out hout
      apply ih fun m' hm' => h m' (List.mem_cons_of_mem m hm')
      refine hout.append ⟨[m], (List.append_nil _).symm, ?_⟩
      intro m' hm'
      rw [List.mem_singleton.1 hm']
      exact h m List.mem_cons_self
  exact hloop _ (speaks_appendCapability hQ ⟨[], rfl, nofun⟩ config)

end Outgoing

namespace SendPorts

variable {P K V S A : Type} [LinearOrder P] (ports : SendPorts)
  (codec : MessageCodec (Message K V S A))

/-- One send to one peer; `clock` is the instant of each payload. An error stands for a failed
`expect`. -/
def handOut (b : RecoveryBook P) (peer : P) (clock : Nat → Nat) :
    Outgoing (Message K V S A) → Except FrameError (HandedOver P)
  | .messages messages => do
    let s ← ports.sendMessagesPaced codec b peer clock messages
    return ⟨s.recovery, s.sent.map Prod.fst, s.sent.flatMap Prod.snd⟩
  | .control messages => do
    let out := ports.sendControlBatchTo codec b peer messages (clock 0)
    let frames ← out.2
    return ⟨out.1, [controlBatch codec ports.framing messages], frames⟩
  | .encoded payload => do
    let out := ports.sendLogicalPayload (RecoveryBook.forIdentity : RecoveryBook P) peer payload
      (clock 0)
    let frames ← out.2
    return ⟨b, [payload], frames⟩

def OrHanded (W : Bytes → Prop) (payloads : List Bytes) (w : Bytes) : Prop := W w ∨ w ∈ payloads

variable {ports codec} {W : Bytes → Prop}

theorem keepsFrom_forIdentity (hash : Bytes → TransferId) :
    (RecoveryBook.forIdentity : RecoveryBook P).KeepsFrom hash W := by
  intro peer id t ht
  cases ht

theorem handOver_ok {s s' : PacedSend P} (h : ports.handOver peer clock s payload = .ok s') :
    ∃ frames, (ports.sendLogicalPayload s.recovery peer payload (clock s.sent.length)).2 =
        .ok frames ∧
      s' = ⟨(ports.sendLogicalPayload s.recovery peer payload (clock s.sent.length)).1,
        s.sent ++ [(payload, frames)]⟩ := by
  rw [handOver] at h
  cases hframes : (ports.sendLogicalPayload s.recovery peer payload (clock s.sent.length)).2 with
  | error e =>
    rw [hframes] at h
    cases h
  | ok frames =>
    rw [hframes] at h
    cases h
    exact ⟨frames, rfl, rfl⟩

structure Carried (ports : SendPorts) (W : Bytes → Prop) (s : PacedSend P) : Prop where
  recovery : s.recovery.KeepsFrom ports.hash (OrHanded W (s.sent.map Prod.fst))
  frames : ∀ p ∈ s.sent, ∀ frame ∈ p.2,
    CarriesFrom ports.hash (OrHanded W (s.sent.map Prod.fst)) frame

theorem Carried.handOver {s s' : PacedSend P} (h : ports.Carried W s)
    (hs : ports.handOver peer clock s payload = .ok s') : ports.Carried W s' := by
  obtain ⟨frames, hframes, rfl⟩ := handOver_ok hs
  have hgrow : ∀ w, OrHanded W (s.sent.map Prod.fst) w →
      OrHanded W ((s.sent ++ [(payload, frames)]).map Prod.fst) w := by
    rintro w (hw | hw)
    · exact .inl hw
    · exact .inr (List.map_append ▸ List.mem_append_left _ hw)
  have hnew : OrHanded W ((s.sent ++ [(payload, frames)]).map Prod.fst) payload :=
    .inr (List.mem_map.2 ⟨(payload, frames), List.mem_append_right _ List.mem_cons_self, rfl⟩)
  obtain ⟨hrecovery, hcarries⟩ := ports.sendLogicalPayload_carries payload (h.recovery.mono hgrow)
    hnew peer (clock s.sent.length)
  refine ⟨hrecovery, ?_⟩
  intro p hp frame hframe
  rcases List.mem_append.1 hp with hp | hp
  · exact (h.frames p hp frame hframe).mono hgrow
  · rw [List.mem_singleton.1 hp] at hframe
    exact hcarries frames hframes frame hframe

theorem handOver_foldlM {s s' : PacedSend P} {groups : List (List (Message K V S A))}
    (hs : groups.foldlM (fun s g => ports.handOver peer clock s (codec.encodeAll g)) s = .ok s') :
    s'.sent.map Prod.fst = s.sent.map Prod.fst ++ groups.map codec.encodeAll ∧
      (ports.Carried W s → ports.Carried W s') := by
  induction groups generalizing s with
  | nil =>
    cases hs
    exact ⟨(List.append_nil _).symm, fun h => h⟩
  | cons g groups ih =>
    rw [List.foldlM_cons] at hs
    cases hfirst : ports.handOver peer clock s (codec.encodeAll g) with
    | error e =>
      rw [hfirst] at hs
      cases hs
    | ok s₁ =>
      rw [hfirst] at hs
      obtain ⟨hsent, hcarried⟩ := ih hs
      refine ⟨?_, fun h => hcarried (h.handOver hfirst)⟩
      obtain ⟨frames, _, rfl⟩ := handOver_ok hfirst
      rw [hsent, List.map_append, List.append_assoc]
      rfl

theorem sendMessagesPaced_spec {b : RecoveryBook P} {s : PacedSend P}
    (h : ports.sendMessagesPaced codec b peer clock messages = .ok s) :
    (b.KeepsFrom ports.hash W → ports.Carried W s) ∧
      ∀ w ∈ s.sent.map Prod.fst, ∃ group, w = codec.encodeAll group ∧
        ∀ m ∈ group, m ∈ advertised ports.framing ++ messages := by
  unfold sendMessagesPaced at h
  split at h
  · cases h
    exact ⟨fun hb => ⟨hb.mono fun _ => .inl, nofun⟩, nofun⟩
  next complete _ _ =>
  rw [appendCapability_nil, pacedLoop_eq] at h
  obtain ⟨hsent, hcarried⟩ := handOver_foldlM (W := W) h
  refine ⟨fun hb => hcarried ⟨hb.mono fun _ => .inl, nofun⟩, ?_⟩
  intro w hw
  rw [hsent] at hw
  obtain ⟨group, hgroup, rfl⟩ := List.mem_map.1 hw
  have hflat : (Packing.pack (encodedSize codec) complete messages
      (advertised ports.framing)).flatten = advertised ports.framing ++ messages :=
    Packing.flatten_pack messages _
  refine ⟨group, rfl, fun m hm => ?_⟩
  rw [← hflat]
  exact List.mem_flatten.2 ⟨group, hgroup, hm⟩

theorem handOut_ok {b : RecoveryBook P} {out : HandedOver P}
    (h : ports.handOut codec b peer clock outgoing = .ok out) :
    (∃ messages s, outgoing = .messages messages ∧
      ports.sendMessagesPaced codec b peer clock messages = .ok s ∧
      out = ⟨s.recovery, s.sent.map Prod.fst, s.sent.flatMap Prod.snd⟩) ∨
    (∃ messages frames, outgoing = .control messages ∧
      (ports.sendControlBatchTo codec b peer messages (clock 0)).2 = .ok frames ∧
      out = ⟨(ports.sendControlBatchTo codec b peer messages (clock 0)).1,
        [controlBatch codec ports.framing messages], frames⟩) ∨
    ∃ payload frames, outgoing = .encoded payload ∧
      (ports.sendLogicalPayload (RecoveryBook.forIdentity : RecoveryBook P) peer payload
        (clock 0)).2 = .ok frames ∧ out = ⟨b, [payload], frames⟩ := by
  cases outgoing with
  | messages messages =>
    rw [handOut] at h
    cases hs : ports.sendMessagesPaced codec b peer clock messages with
    | error e =>
      rw [hs] at h
      cases h
    | ok s =>
      rw [hs] at h
      cases h
      exact .inl ⟨messages, s, rfl, hs, rfl⟩
  | control messages =>
    rw [handOut] at h
    cases hframes : (ports.sendControlBatchTo codec b peer messages (clock 0)).2 with
    | error e =>
      simp only [hframes] at h
      cases h
    | ok frames =>
      simp only [hframes] at h
      cases h
      exact .inr (.inl ⟨messages, frames, rfl, hframes, rfl⟩)
  | encoded payload =>
    rw [handOut] at h
    cases hframes : (ports.sendLogicalPayload (RecoveryBook.forIdentity : RecoveryBook P) peer
        payload (clock 0)).2 with
    | error e =>
      simp only [hframes] at h
      cases h
    | ok frames =>
      simp only [hframes] at h
      cases h
      exact .inr (.inr ⟨payload, frames, rfl, hframes, rfl⟩)

theorem handOut_carries {b : RecoveryBook P} {out : HandedOver P} (hb : b.KeepsFrom ports.hash W)
    (h : ports.handOut codec b peer clock outgoing = .ok out) :
    out.recovery.KeepsFrom ports.hash (OrHanded W out.payloads) ∧
      ∀ frame ∈ out.frames, CarriesFrom ports.hash (OrHanded W out.payloads) frame := by
  have hsend {b : RecoveryBook P} (payload : Bytes) (hb : b.KeepsFrom ports.hash W) :=
    ports.sendLogicalPayload_carries payload
      (hb.mono fun _ hw => (.inl hw : OrHanded W [payload] _)) (.inr List.mem_cons_self) peer
      (clock 0)
  rcases handOut_ok h with ⟨messages, s, rfl, hs, rfl⟩ | ⟨messages, frames, rfl, hframes, rfl⟩ |
    ⟨payload, frames, rfl, hframes, rfl⟩
  · obtain ⟨hrecovery, hcarries⟩ := (sendMessagesPaced_spec hs).1 hb
    refine ⟨hrecovery, ?_⟩
    intro frame hframe
    obtain ⟨p, hp, hframe⟩ := List.mem_flatMap.1 hframe
    exact hcarries p hp frame hframe
  · rw [sendControlBatchTo] at hframes ⊢
    split
    · next hnil =>
      rw [if_pos hnil] at hframes
      cases hframes
      exact ⟨hb.mono fun _ => .inl, nofun⟩
    · next hnil =>
      rw [if_neg hnil] at hframes
      exact ⟨(hsend _ hb).1, (hsend _ hb).2 frames hframes⟩
  · exact ⟨hb.mono fun _ => .inl,
      (hsend payload (keepsFrom_forIdentity ports.hash)).2 frames hframes⟩

/-- The payloads handed over say what there is to send, and the capability. -/
theorem handOut_speaks {b : RecoveryBook P} {out : HandedOver P} {Q : Message K V S A → Prop}
    (hQ : ∀ bytes, Q (.reserved6 bytes)) (htask : outgoing.Says codec Q)
    (h : ports.handOut codec b peer clock outgoing = .ok out) :
    ∀ w ∈ out.payloads, codec.Speaks Q w := by
  rcases handOut_ok h with ⟨messages, s, rfl, hs, rfl⟩ | ⟨messages, frames, rfl, hframes, rfl⟩ |
    ⟨payload, frames, rfl, hframes, rfl⟩
  · intro w hw
    obtain ⟨group, rfl, hgroup⟩ := (sendMessagesPaced_spec (W := fun _ => True) hs).2 w hw
    refine ⟨group, rfl, ?_⟩
    intro m hm
    rcases List.mem_append.1 (hgroup m hm) with hadv | hm
    · unfold advertised at hadv
      split at hadv
      · rw [List.mem_singleton.1 hadv]
        exact hQ _
      · cases hadv
    · exact htask m hm
  · intro w hw
    rw [List.mem_singleton.1 hw]
    exact speaks_controlBatch hQ htask _
  · intro w hw
    rw [List.mem_singleton.1 hw]
    exact htask

end SendPorts

end Reconcile
