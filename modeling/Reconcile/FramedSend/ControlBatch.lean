import Reconcile.FramedSend.Packing

namespace Reconcile
open Lib Replay
set_option autoImplicit true

section ControlBatch

variable {K V S A : Type} (codec : MessageCodec (Message K V S A)) (config : FramingConfig)

theorem controlBatch_eq (messages : List (Message K V S A)) :
    controlBatch codec config messages = codec.encodeAll (advertised config ++ messages) := by
  have hfold (out : Bytes) : messages.foldl (fun out m => out ++ codec.encode m) out =
      out ++ codec.encodeAll messages := by
    rw [MessageCodec.encodeAll]
    induction messages generalizing out with
    | nil => exact (List.append_nil out).symm
    | cons m messages ih => rw [List.foldl_cons, ih, List.flatMap_cons, List.append_assoc]
  rw [controlBatch, hfold, appendCapability_nil]
  exact List.flatMap_append.symm

theorem foldl_push_ranges (messages : List (Message K V S A)) (d : DecodedDatagram K V A) :
    (messages.foldl DecodedDatagram.push d).datedRanges =
      d.datedRanges ++ messages.filterMap Message.entrySegment ∧
    (messages.foldl DecodedDatagram.push d).valueRanges =
      d.valueRanges ++ messages.filterMap Message.stateSegment := by
  induction messages generalizing d with
  | nil => exact ⟨(List.append_nil _).symm, (List.append_nil _).symm⟩
  | cons m messages ih =>
    rw [List.foldl_cons, (ih _).1, (ih _).2]
    cases m <;> simp [DecodedDatagram.push, List.filterMap_cons, Message.entrySegment,
      Message.stateSegment]

theorem length_segments {messages : List (Message K V S A)} (h : ∀ m ∈ messages, m.isRange = true) :
    (messages.filterMap Message.entrySegment).length +
      (messages.filterMap Message.stateSegment).length = messages.length := by
  induction messages with
  | nil => rfl
  | cons m messages ih =>
    have hrest := ih fun m' hm' => h m' (List.mem_cons_of_mem m hm')
    have hm := h m List.mem_cons_self
    cases m with
    | entryFingerprint segment =>
      simp only [List.filterMap_cons, Message.entrySegment, Message.stateSegment, List.length_cons]
      omega
    | stateFingerprint segment =>
      simp only [List.filterMap_cons, Message.entrySegment, Message.stateSegment, List.length_cons]
      omega
    | _ => cases hm

theorem length_advertised : (advertised config : List (Message K V S A)).length =
    if config.selectiveRecovery then 1 else 0 := by
  unfold advertised
  split <;> rfl

/-- What a receiver makes of a control batch: the messages up to the limit. -/
theorem decodeDatagram_controlBatch (messages : List (Message K V S A)) :
    ∃ batch, decodeDatagram codec (controlBatch codec config messages) = some batch ∧
      batch.datedRanges = (messages.take (maxMessagesPerDatagram -
        (advertised config : List (Message K V S A)).length)).filterMap Message.entrySegment ∧
      batch.valueRanges = (messages.take (maxMessagesPerDatagram -
        (advertised config : List (Message K V S A)).length)).filterMap Message.stateSegment := by
  have hnone : (advertised config : List (Message K V S A)).filterMap Message.entrySegment = [] ∧
      (advertised config : List (Message K V S A)).filterMap Message.stateSegment = [] := by
    unfold advertised
    split <;> exact ⟨rfl, rfl⟩
  have hlen : (advertised config : List (Message K V S A)).length ≤ maxMessagesPerDatagram := by
    have hmax : 1 ≤ maxMessagesPerDatagram := by decide
    rw [length_advertised]
    split <;> omega
  rw [decodeDatagram, controlBatch_eq, codec.decodeStream_encodeAll]
  refine ⟨_, rfl, ?_, ?_⟩
  · rw [(foldl_push_ranges _ _).1, List.take_append, List.take_of_length_le hlen,
      List.filterMap_append, hnone.1]
    rfl
  · rw [(foldl_push_ranges _ _).2, List.take_append, List.take_of_length_le hlen,
      List.filterMap_append, hnone.2]
    rfl

/-- A receiver gets every range of a control batch exactly when the batch, with the advertised
capability, has no more messages than are decoded from one payload. -/
theorem control_batch_whole_iff {messages : List (Message K V S A)}
    (hrange : ∀ m ∈ messages, m.isRange = true) :
    (∃ batch, decodeDatagram codec (controlBatch codec config messages) = some batch ∧
      batch.datedRanges = messages.filterMap Message.entrySegment ∧
      batch.valueRanges = messages.filterMap Message.stateSegment) ↔
    messages.length + (if config.selectiveRecovery then 1 else 0) ≤ maxMessagesPerDatagram := by
  obtain ⟨batch, hbatch, hdated, hvalue⟩ := decodeDatagram_controlBatch codec config messages
  rw [length_advertised] at hdated hvalue
  constructor
  · rintro ⟨batch', hbatch', hdated', hvalue'⟩
    cases hbatch.symm.trans hbatch'
    have hall := length_segments hrange
    have htaken := length_segments fun m
      (hm : m ∈ messages.take (maxMessagesPerDatagram - if config.selectiveRecovery then 1 else 0)) =>
        hrange m (List.mem_of_mem_take hm)
    rw [← hdated, ← hvalue, hdated', hvalue', hall, List.length_take] at htaken
    have hmax : 1 ≤ maxMessagesPerDatagram := by decide
    have hone : (if config.selectiveRecovery then 1 else 0) ≤ 1 := by split <;> omega
    omega
  · intro hle
    rw [List.take_of_length_le (Nat.le_sub_of_add_le hle)] at hdated hvalue
    exact ⟨batch, hbatch, hdated, hvalue⟩

theorem control_batch_whole_iff_two :
    ∃ batch, decodeDatagram byteCodec (controlBatch byteCodec {}
        [.entryFingerprint 7, .stateFingerprint 9]) = some batch ∧
      batch.datedRanges = [7] ∧ batch.valueRanges = [9] :=
  (control_batch_whole_iff byteCodec {} (by decide)).2 (by decide)

def plainPorts : SendPorts := { SendPorts.smallest with framing := {} }

/-- The batch of 65507 ranges is sent, and the receiver decodes all of them but the last. -/
theorem control_batch_truncated :
    let messages : List (Message UInt8 Bytes Bytes UInt8) :=
      List.replicate maxMessagesPerDatagram (.entryFingerprint 7)
    let payload := controlBatch byteCodec plainPorts.framing messages
    plainPorts.framing.validate plainPorts.authenticator.overhead = .ok () ∧
      payload.length ≤ plainPorts.framing.maxLogicalMessageSize ∧
      Pieces.chunkCount 1158 payload ≤ plainPorts.framing.maxFragmentsPerMessage ∧
      (∃ frames, (plainPorts.sendControlBatchTo byteCodec (.forIdentity : RecoveryBook Nat) 1 messages
        0).2 = .ok frames ∧ frames.isEmpty = false) ∧
      ∃ batch, decodeDatagram byteCodec payload = some batch ∧
        batch.datedRanges.length + 1 = messages.length := by
  intro messages payload
  have hlength : payload.length = 8 + maxMessagesPerDatagram * 2 := by
    have hpayload := congrArg List.length (controlBatch_eq byteCodec plainPorts.framing messages)
    rw [MessageCodec.encodeAll, List.flatMap_append, List.length_append, List.length_flatMap,
      List.length_flatMap, List.map_replicate, List.sum_replicate_nat] at hpayload
    exact hpayload
  unfold maxMessagesPerDatagram at hlength
  have hsize : payload.length ≤ plainPorts.framing.maxLogicalMessageSize := by
    rw [hlength]
    decide
  have hcount : Pieces.chunkCount 1158 payload ≤ plainPorts.framing.maxFragmentsPerMessage := by
    rw [Pieces.chunkCount, hlength]
    decide
  refine ⟨by decide, hsize, hcount, ?_, ?_⟩
  · have hcapacious : plainPorts.Capacious 1158 := plainPorts.capacious (by decide)
    have hne : payload ≠ [] := by
      intro hnil
      rw [hnil] at hlength
      cases hlength
    have hnocapable : (.forIdentity : RecoveryBook Nat).Fresh 1
        (plainPorts.transferIds 1198 1158 [payload]) := by rintro ⟨⟩
    obtain ⟨frames, hframes, hempty, _⟩ :=
      hcapacious.sendLogicalPayload_carries (by decide) hnocapable 0
    refine ⟨frames, ?_, ?_⟩
    · rw [SendPorts.sendControlBatchTo, if_neg hne]
      exact hframes
    · rw [hempty, SendPorts.carries, decide_eq_true hsize, decide_eq_true hcount, Bool.or_true]
      rfl
  · obtain ⟨batch, hbatch, hdated, _⟩ :=
      decodeDatagram_controlBatch byteCodec plainPorts.framing messages
    refine ⟨batch, hbatch, ?_⟩
    have hsegment : Message.entrySegment (.entryFingerprint 7 : Message UInt8 Bytes Bytes UInt8) =
        some 7 := rfl
    rw [hdated, List.take_replicate, List.filterMap_replicate_of_some hsegment,
      List.length_replicate, List.length_replicate]
    decide

end ControlBatch

end Reconcile
