import Reconcile.FramedSend

namespace Reconcile
open Lib Replay
set_option autoImplicit true

/-- The protocol messages: `V` travels on the dated channel, `S` on the state-only one, and `A` is a
range with its aggregate. -/
inductive Message (K V S A : Type) where
  | entryFingerprint (segment : A)
  | entryUpdate (key : K) (entry : V)
  | tombstoneAck (key : K) (version : Fin (2 ^ 64))
  | stateFingerprint (segment : A)
  | stateUpdate (key : K) (state : S)
  | convergenceAck
  | reserved6 (payload : Bytes)

def selectiveRecoveryCapability : Bytes := [115, 114, 1]

inductive DecodeFault where
  | unexpectedEof
  | malformed
  deriving DecidableEq, Repr

/-- A self-delimiting codec that writes something for every value. -/
structure MessageCodec (M : Type) where
  encode : M → Bytes
  read : Bytes → Except DecodeFault (M × Bytes)
  encode_ne : ∀ m, encode m ≠ []
  read_encode : ∀ m rest, read (encode m ++ rest) = .ok (m, rest)
  read_nil : read [] = .error .unexpectedEof

namespace MessageCodec

variable {M : Type} (codec : MessageCodec M)

def encodeAll (messages : List M) : Bytes := messages.flatMap codec.encode

/-- At the end of the input, also in the middle of a message, and at the limit the decoder stops with
what it has. -/
def decodeStream : Nat → Bytes → Except DecodeFault (List M)
  | 0, _ => .ok []
  | n + 1, bytes =>
    match codec.read bytes with
    | .ok (m, rest) =>
      match decodeStream n rest with
      | .ok messages => .ok (m :: messages)
      | .error fault => .error fault
    | .error .unexpectedEof => .ok []
    | .error .malformed => .error .malformed

theorem decodeStream_encodeAll (n : Nat) (messages : List M) :
    codec.decodeStream n (codec.encodeAll messages) = .ok (messages.take n) := by
  induction n generalizing messages with
  | zero => rfl
  | succ n ih =>
    cases messages with
    | nil => simp only [encodeAll, List.flatMap_nil, decodeStream, codec.read_nil, List.take_nil]
    | cons m messages =>
      have hrest := ih messages
      rw [encodeAll] at hrest
      simp only [encodeAll, List.flatMap_cons, decodeStream, codec.read_encode, hrest,
        List.take_succ_cons]

end MessageCodec

namespace ByteCodec

def byte : Bytes → Except DecodeFault (UInt8 × Bytes)
  | [] => .error .unexpectedEof
  | b :: rest => .ok (b, rest)

def putBytes : Bytes → Bytes
  | [] => [0]
  | b :: bytes => 1 :: b :: putBytes bytes

def takeBytes : Bytes → Except DecodeFault (Bytes × Bytes)
  | [] => .error .unexpectedEof
  | [tag] => if tag = 0 then .ok ([], []) else .error .unexpectedEof
  | tag :: b :: rest =>
    if tag = 0 then .ok ([], b :: rest) else (takeBytes rest).map fun r => (b :: r.1, r.2)

def takeVersion (bytes : Bytes) : Except DecodeFault (Fin (2 ^ 64) × Bytes) :=
  match Wire.readLe 8 bytes with
  | none => .error .unexpectedEof
  | some (n, rest) => if h : n < 2 ^ 64 then .ok (⟨n, h⟩, rest) else .error .malformed

def encode : Message UInt8 Bytes Bytes UInt8 → Bytes
  | .entryFingerprint segment => [0, segment]
  | .entryUpdate key entry => 1 :: key :: putBytes entry
  | .tombstoneAck key version => 2 :: key :: Wire.leBytes 8 version
  | .stateFingerprint segment => [3, segment]
  | .stateUpdate key state => 4 :: key :: putBytes state
  | .convergenceAck => [5]
  | .reserved6 payload => 6 :: putBytes payload

def read (bytes : Bytes) : Except DecodeFault (Message UInt8 Bytes Bytes UInt8 × Bytes) := do
  let (tag, bytes) ← byte bytes
  if tag = 0 then
    let (segment, bytes) ← byte bytes
    return (.entryFingerprint segment, bytes)
  else if tag = 1 then
    let (key, bytes) ← byte bytes
    let (entry, bytes) ← takeBytes bytes
    return (.entryUpdate key entry, bytes)
  else if tag = 2 then
    let (key, bytes) ← byte bytes
    let (version, bytes) ← takeVersion bytes
    return (.tombstoneAck key version, bytes)
  else if tag = 3 then
    let (segment, bytes) ← byte bytes
    return (.stateFingerprint segment, bytes)
  else if tag = 4 then
    let (key, bytes) ← byte bytes
    let (state, bytes) ← takeBytes bytes
    return (.stateUpdate key state, bytes)
  else if tag = 5 then return (.convergenceAck, bytes)
  else if tag = 6 then
    let (payload, bytes) ← takeBytes bytes
    return (.reserved6 payload, bytes)
  else .error .malformed

theorem takeBytes_putBytes (bytes rest : Bytes) :
    takeBytes (putBytes bytes ++ rest) = .ok (bytes, rest) := by
  induction bytes with
  | nil => cases rest <;> rfl
  | cons b bytes ih =>
    rw [putBytes, List.cons_append, List.cons_append, takeBytes, if_neg (by decide), ih]
    rfl

theorem takeVersion_leBytes (version : Fin (2 ^ 64)) (rest : Bytes) :
    takeVersion (Wire.leBytes 8 version ++ rest) = .ok (version, rest) := by
  rw [takeVersion, Wire.readLe_leBytes 8 version rest version.isLt]
  exact dif_pos version.isLt

theorem read_encode (m : Message UInt8 Bytes Bytes UInt8) (rest : Bytes) :
    read (encode m ++ rest) = .ok (m, rest) := by
  cases m with
  | entryFingerprint segment => rfl
  | entryUpdate key entry =>
    change (takeBytes (putBytes entry ++ rest) >>= _) = _
    rw [takeBytes_putBytes]
    rfl
  | tombstoneAck key version =>
    simp [encode, read, byte, takeVersion_leBytes, bind, Except.bind, pure, Except.pure]
  | stateFingerprint segment => rfl
  | stateUpdate key state =>
    change (takeBytes (putBytes state ++ rest) >>= _) = _
    rw [takeBytes_putBytes]
    rfl
  | convergenceAck => rfl
  | reserved6 payload =>
    change (takeBytes (putBytes payload ++ rest) >>= _) = _
    rw [takeBytes_putBytes]
    rfl

theorem encode_ne (m : Message UInt8 Bytes Bytes UInt8) : encode m ≠ [] := by
  cases m <;> exact List.cons_ne_nil _ _

end ByteCodec

def byteCodec : MessageCodec (Message UInt8 Bytes Bytes UInt8) where
  encode := ByteCodec.encode
  read := ByteCodec.read
  encode_ne := ByteCodec.encode_ne
  read_encode := ByteCodec.read_encode
  read_nil := rfl

namespace Message

variable {K V S A : Type}

def entrySegment : Message K V S A → Option A
  | .entryFingerprint segment => some segment
  | _ => none

def stateSegment : Message K V S A → Option A
  | .stateFingerprint segment => some segment
  | _ => none

def isRange : Message K V S A → Bool
  | .entryFingerprint _ | .stateFingerprint _ => true
  | _ => false

end Message

def advertised (config : FramingConfig) : List (Message K V S A) :=
  if config.selectiveRecovery then [.reserved6 selectiveRecoveryCapability] else []

def appendCapability (codec : MessageCodec (Message K V S A)) (config : FramingConfig)
    (out : Bytes) : Bytes :=
  if config.selectiveRecovery then out ++ codec.encode (.reserved6 selectiveRecoveryCapability)
  else out

theorem appendCapability_nil (codec : MessageCodec (Message K V S A)) (config : FramingConfig) :
    appendCapability codec config [] = codec.encodeAll (advertised config) := by
  unfold appendCapability advertised
  split
  · exact (List.append_nil _).symm
  · rfl

def controlBatch (codec : MessageCodec (Message K V S A)) (config : FramingConfig)
    (messages : List (Message K V S A)) : Bytes :=
  messages.foldl (fun out m => out ++ codec.encode m) (appendCapability codec config [])

def SendPorts.sendControlBatchTo [LinearOrder P] (ports : SendPorts)
    (codec : MessageCodec (Message K V S A)) (b : RecoveryBook P) (peer : P)
    (messages : List (Message K V S A)) (now : Nat) :
    RecoveryBook P × Except FrameError (List Bytes) :=
  if controlBatch codec ports.framing messages = [] then (b, .ok [])
  else ports.sendLogicalPayload b peer (controlBatch codec ports.framing messages) now

def sendBatch (send : σ → Bytes → Except ε σ) (s : σ) (sendBuf : Bytes) : Except ε σ :=
  if sendBuf = [] then .ok s else send s sendBuf

/-- The batching loop: a message that overflows the batch is carried over, or sent by itself when it
is too large for any batch. `send` hands over one logical payload. -/
def pacedLoop (completeCapacity : Nat) (send : σ → Bytes → Except ε σ) :
    List Bytes → Bytes → σ → Except ε σ
  | [], sendBuf, s => sendBatch send s sendBuf
  | encoded :: rest, sendBuf, s =>
    if (sendBuf ++ encoded).length ≤ completeCapacity then
      pacedLoop completeCapacity send rest (sendBuf ++ encoded) s
    else do
      let s ← sendBatch send s sendBuf
      if encoded.length ≤ completeCapacity then pacedLoop completeCapacity send rest encoded s
      else
        let s ← send s encoded
        pacedLoop completeCapacity send rest [] s

structure PacedSend (P : Type) where
  recovery : RecoveryBook P
  sent : List (Bytes × List Bytes)

/-- A payload that was dropped or deferred has no frames. -/
def PacedSend.emitted (s : PacedSend P) : List Bytes :=
  (s.sent.filter fun p => !p.2.isEmpty).map Prod.fst

namespace SendPorts

variable {P : Type} [LinearOrder P] (ports : SendPorts)

/-- Hand over one logical payload; `clock` is the instant of each. -/
def handOver (peer : P) (clock : Nat → Nat) (s : PacedSend P) (payload : Bytes) :
    Except FrameError (PacedSend P) := do
  let out := ports.sendLogicalPayload s.recovery peer payload (clock s.sent.length)
  let frames ← out.2
  return ⟨out.1, s.sent ++ [(payload, frames)]⟩

def sendMessagesPaced (codec : MessageCodec (Message K V S A)) (b : RecoveryBook P) (peer : P)
    (clock : Nat → Nat) (messages : List (Message K V S A)) : Except FrameError (PacedSend P) :=
  match capacities ports.overhead ports.framing with
  | none => .ok ⟨b, []⟩
  | some (completeCapacity, _) =>
    pacedLoop completeCapacity (ports.handOver peer clock) (messages.map codec.encode)
      (appendCapability codec ports.framing []) ⟨b, []⟩

end SendPorts

def maxMessagesPerDatagram : Nat := 65507

structure DecodedDatagram (K V A : Type) where
  datedRanges : List A := []
  datedUpdates : List (K × V) := []
  tombstoneAcks : List (K × Fin (2 ^ 64)) := []
  sawConvergenceAck : Bool := false
  selectiveRecoveryCapability : Bool := false
  valueRanges : List A := []

def DecodedDatagram.push (d : DecodedDatagram K V A) : Message K V S A → DecodedDatagram K V A
  | .entryFingerprint segment => { d with datedRanges := d.datedRanges ++ [segment] }
  | .entryUpdate key entry => { d with datedUpdates := d.datedUpdates ++ [(key, entry)] }
  | .tombstoneAck key version => { d with tombstoneAcks := d.tombstoneAcks ++ [(key, version)] }
  | .stateFingerprint segment => { d with valueRanges := d.valueRanges ++ [segment] }
  -- A dated store does not integrate a state-only update.
  | .stateUpdate _ _ => d
  | .convergenceAck => { d with sawConvergenceAck := true }
  | .reserved6 payload =>
    { d with selectiveRecoveryCapability :=
        d.selectiveRecoveryCapability || payload = Reconcile.selectiveRecoveryCapability }

def decodeDatagram (codec : MessageCodec (Message K V S A)) (payload : Bytes) :
    Option (DecodedDatagram K V A) :=
  match codec.decodeStream maxMessagesPerDatagram payload with
  | .ok messages => some (messages.foldl DecodedDatagram.push {})
  | .error _ => none

end Reconcile
