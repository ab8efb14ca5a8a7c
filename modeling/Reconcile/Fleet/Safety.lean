import Reconcile.Fleet.Attribution

namespace Reconcile
open Lib Replay
set_option autoImplicit true

def MessageCodec.via (codec : MessageCodec M) (f : N → M) (g : M → Option N)
    (h : ∀ n, g (f n) = some n) : MessageCodec N where
  encode n := codec.encode (f n)
  read bytes :=
    match codec.read bytes with
    | .error fault => .error fault
    | .ok (m, rest) =>
      match g m with
      | some n => .ok (n, rest)
      | none => .error .malformed
  encode_ne n := codec.encode_ne (f n)
  read_encode n rest := by simp only [codec.read_encode, h]
  read_nil := by simp only [codec.read_nil]

namespace Fleet

namespace Small

abbrev Num : Type := Fin 256

def putState : State Num → Bytes
  | .present value => [1, UInt8.ofFin value]
  | .tombstone => [0]

def takeState : Bytes → Option (State Num)
  | [tag, value] => if tag = 1 then some (.present value.toFin) else none
  | [tag] => if tag = 0 then some .tombstone else none
  | _ => none

def putEntry (e : Entry Num Num) : Bytes := UInt8.ofFin e.stamp :: putState e.state

def takeEntry : Bytes → Option (Entry Num Num)
  | stamp :: rest => (takeState rest).map fun state => ⟨stamp.toFin, state⟩
  | [] => none

theorem takeState_putState (state : State Num) : takeState (putState state) = some state := by
  cases state <;> rfl

theorem takeEntry_putEntry (e : Entry Num Num) : takeEntry (putEntry e) = some e := by
  rw [putEntry, takeEntry, takeState_putState]
  rfl

def put : MapMessage Num Num Num UInt8 → Message UInt8 Bytes Bytes UInt8
  | .entryFingerprint segment => .entryFingerprint segment
  | .entryUpdate key entry => .entryUpdate (UInt8.ofFin key) (putEntry entry)
  | .tombstoneAck key version => .tombstoneAck (UInt8.ofFin key) version
  | .stateFingerprint segment => .stateFingerprint segment
  | .stateUpdate key state => .stateUpdate (UInt8.ofFin key) (putState state)
  | .convergenceAck => .convergenceAck
  | .reserved6 payload => .reserved6 payload

def take : Message UInt8 Bytes Bytes UInt8 → Option (MapMessage Num Num Num UInt8)
  | .entryFingerprint segment => some (.entryFingerprint segment)
  | .entryUpdate key entry => (takeEntry entry).map (.entryUpdate key.toFin)
  | .tombstoneAck key version => some (.tombstoneAck key.toFin version)
  | .stateFingerprint segment => some (.stateFingerprint segment)
  | .stateUpdate key state => (takeState state).map (.stateUpdate key.toFin)
  | .convergenceAck => some .convergenceAck
  | .reserved6 payload => some (.reserved6 payload)

theorem take_put (m : MapMessage Num Num Num UInt8) : take (put m) = some m := by
  cases m with
  | entryUpdate key entry =>
    rw [put, take, takeEntry_putEntry]
    rfl
  | stateUpdate key state =>
    rw [put, take, takeState_putState]
    rfl
  | _ => rfl

def protocol : Protocol Num Num Num UInt8 where
  register := { Merge.keepLocal Num Num with
    digest := fun state => (putState state).length
    entryDigest := fun e => e.stamp }
  codec := byteCodec.via put take take_put
  dated := ⟨fun _ => [0], fun _ _ _ => ([], [])⟩
  valueOnly := ⟨fun _ => [0], fun _ _ _ => ([], [])⟩

def hash (payload : Bytes) : TransferId :=
  ⟨((UInt8.ofNat payload.length :: payload) ++ List.replicate 32 0).take 32, by
    simp only [List.cons_append, List.length_take, List.length_cons, List.length_append,
      List.length_replicate]
    omega⟩

def ports : SendPorts where
  primitives := Boundary.unchecked
  hash := hash
  authenticator := .enabled ⟨Boundary.zeros 32, []⟩
  framing := {}
  maxPeers := 4
  takes _ := true
  nowMs _ := 0
  nonce _ := Boundary.zeros 24

def deployment : Deployment (Fin 3) where
  ports _ := ports
  reads p := p = 2
  window _ := 0
  replay _ := { policy := ⟨60, 8⟩, enabled := true }
  reassembler _ := .forIdentity ports.framing.reassemblyLimits
  primitives_eq _ _ := rfl
  hash_eq _ _ := rfl
  shares _ _ := List.mem_cons_self

def moment : Moment := ⟨0, 0, 100, 0, 0⟩

def sentAfter (es : List (FleetEvent Num Num (Fin 3) Num)) : List Bytes :=
  match runAll (Fleet.step deployment protocol) (start deployment) es with
  | some s => s.wire.map Prod.snd
  | none => []

/-- The reader opens a round with node 0. Node 0 removes key 5 and sends the tombstone to node 1. -/
def opening : List (FleetEvent Num Num (Fin 3) Num) :=
  [.reader 2 (.seed 0 0), .reader 2 (.round 1 0), .reader 2 (.send 0 id), .dated 0 (.seed 1 0),
    .dated 0 (.tryCall (.remove 5) [3] true 0), .dated 0 (.send 0 id moment)]

/-- The round reaches node 0, the tombstone reaches node 1, which sends its acknowledgement. -/
def answering : List (FleetEvent Num Num (Fin 3) Num) :=
  opening ++
    [.dated 0 (.datagram 2 ((sentAfter opening).getD 0 []) moment),
      .dated 1 (.datagram 0 ((sentAfter opening).getD 1 []) moment), .dated 1 (.send 0 id moment)]

/-- The acknowledgement reaches node 0. -/
def exchange : List (FleetEvent Num Num (Fin 3) Num) :=
  answering ++ [.dated 0 (.datagram 1 ((sentAfter answering).getD 2 []) moment)]

def sending : List (FleetEvent Num Num (Fin 3) Num) := answering.take 7

def arrival : MapEvent Num Num (Fin 3) Num :=
  .datagram 0 ((sentAfter opening).getD 1 []) moment

/-- The run is evaluated once, with the side conditions of its steps. -/
theorem exchange_checked :
    (runAll (Fleet.step deployment protocol) (start deployment) exchange).isSome = true ∧
    checkAll (Fleet.step deployment protocol) (fun s e => s.genuine deployment e.node e.arrival)
      (start deployment) exchange = true ∧
    checkAll (Fleet.step deployment protocol) (fun s e => s.inOrder e)
      (start deployment) exchange = true := by
  decide +kernel

theorem isSome_exchange :
    (runAll (Fleet.step deployment protocol) (start deployment) exchange).isSome = true :=
  exchange_checked.1

def final : Fleet Num Num (Fin 3) Num UInt8 :=
  (runAll (Fleet.step deployment protocol) (start deployment) exchange).get isSome_exchange

theorem runs_exchange : Runs (Fleet.step deployment protocol) (start deployment) exchange final :=
  runs_of_runAll (Option.some_get _).symm

def datedAt (s : Fleet Num Num (Fin 3) Num UInt8) (p : Fin 3) :
    Option (MapNode Num Num (Fin 3) Num UInt8) :=
  match s.nodes p with
  | .dated n => some n
  | .reader _ => none

theorem exists_dated {α : Type} {f : MapNode Num Num (Fin 3) Num UInt8 → Option α} {a : α}
    (h : (datedAt final p).bind f = some a) : ∃ n, final.nodes p = .dated n ∧ f n = some a := by
  obtain ⟨n, hn, ha⟩ := Option.bind_eq_some_iff.1 h
  unfold datedAt at hn
  split at hn
  · next m hm =>
    cases hn
    exact ⟨n, hm, ha⟩
  · cases hn

theorem final_reads :
    (datedAt final 1).bind (fun n => n.store.map.lookup 5) = some (.tombstone 3) ∧
    (datedAt final 0).bind (fun n => n.store.members.lookup 1) = some () ∧
    (datedAt final 0).bind (fun n => n.store.acknowledgedVersion 5 1) = some 3 ∧
    (datedAt final 2).isNone = true ∧ (final.sent.find? fun x => x.1 = 2).isSome = true ∧
    ∀ x ∈ final.sent, ∀ w ∈ final.completed,
      (deployment.ports x.1).hash x.2 = (deployment.ports x.1).hash w → x.2 = w := by
  decide +kernel

theorem noCollision_final : final.NoCollision deployment := by
  obtain ⟨_, _, _, _, _, hcollision⟩ := final_reads
  exact hcollision

theorem exists_member_final : ∃ n, final.nodes 0 = .dated n ∧ 1 ∈ n.store.members := by
  obtain ⟨_, hread, _⟩ := final_reads
  obtain ⟨n, hn, hlookup⟩ := exists_dated hread
  exact ⟨n, hn, AList.lookup_isSome.1 (by rw [hlookup]; rfl)⟩

theorem genuine_exchange : Genuine deployment protocol exchange :=
  eachStep_of_checkAll exchange_checked.2.1

theorem inOrder_exchange : InOrder deployment protocol exchange :=
  eachStep_of_checkAll exchange_checked.2.2

end Small

variable {K V P T A : Type} [LinearOrder K] [LinearOrder P] [LinearOrder T]
variable {D : Deployment P} {proto : Protocol K V T A} {s : Fleet K V P T A}
variable {es : List (FleetEvent K V P T)}

/-- No node invents data: every entry a dated node holds was written by a local call somewhere, and
every state a reader holds is the state of such an entry. Lost, repeated, reordered and redirected
datagrams and false source addresses do not change that. -/
theorem held_was_written (h : Runs (Fleet.step D proto) (start D) es s) (hc : s.NoCollision D) :
    (∀ p n, s.nodes p = .dated n → ∀ k e, n.store.map.lookup k = some e → (k, e) ∈ s.written) ∧
      ∀ p n, s.nodes p = .reader n → ∀ k state, n.tree.lookup k = some state →
        ∃ e, (k, e) ∈ s.written ∧ e.project = state := by
  have hsound := sound_of_runs h hc
  constructor
  · intro p n hn k e he
    have hnode := hsound.nodes p
    rw [hn] at hnode
    exact hnode.1.map k e he
  · intro p n hn k state hs
    have hnode := hsound.nodes p
    rw [hn] at hnode
    exact hnode.tree k state hs

theorem held_was_written_exchange :
    ∃ n, Small.final.nodes 1 = .dated n ∧ n.store.map.lookup 5 = some (.tombstone 3) ∧
      ((5, .tombstone 3) : Small.Num × Entry Small.Num Small.Num) ∈ Small.final.written := by
  obtain ⟨hread, _⟩ := Small.final_reads
  obtain ⟨n, hn, hlookup⟩ := Small.exists_dated hread
  exact ⟨n, hn, hlookup,
    (held_was_written Small.runs_exchange Small.noCollision_final).1 1 n hn 5 _ hlookup⟩

/-- A reader is a sink: the payloads it sends have nothing but fingerprints of states and the
advertised capability, so no value, no acknowledgement and nothing of the dated channel. -/
theorem reader_sends_fingerprints (h : Runs (Fleet.step D proto) (start D) es s)
    (hn : s.nodes p = .reader n) (hw : (p, w) ∈ s.sent) :
    ∃ messages, w = proto.codec.encodeAll messages ∧
      ∀ m ∈ messages, (∃ segment, m = .stateFingerprint segment) ∨ ∃ bytes, m = .reserved6 bytes := by
  obtain ⟨messages, he, hm⟩ := (sinks_of_runs h p n hn).2 w hw
  refine ⟨messages, he, ?_⟩
  intro m hin
  have hvalue := hm m hin
  cases m with
  | stateFingerprint segment => exact .inl ⟨segment, rfl⟩
  | reserved6 bytes => exact .inr ⟨bytes, rfl⟩
  | _ => cases hvalue

theorem reader_sends_fingerprints_exchange :
    ∃ w, (2, w) ∈ Small.final.sent ∧ ∃ messages, w = Small.protocol.codec.encodeAll messages ∧
      ∀ m ∈ messages,
        (∃ segment, m = .stateFingerprint segment) ∨ ∃ bytes, m = .reserved6 bytes := by
  obtain ⟨_, _, _, hreader, hsent, _⟩ := Small.final_reads
  obtain ⟨⟨p, w⟩, hx⟩ := Option.isSome_iff_exists.1 hsent
  have hp := List.find?_some hx
  cases of_decide_eq_true hp
  have hw := List.mem_of_find?_eq_some hx
  cases hn : Small.final.nodes 2 with
  | reader n =>
    exact ⟨w, hw, reader_sends_fingerprints Small.runs_exchange hn hw⟩
  | dated n =>
    have hnone : Small.datedAt Small.final 2 = none := Option.isNone_iff_eq_none.1 hreader
    rw [Small.datedAt, hn] at hnone
    cases hnone

/-- With genuine source addresses, the members of a dated node are dated nodes. -/
theorem members_are_dated (h : Runs (Fleet.step D proto) (start D) es s) (hg : Genuine D proto es)
    (hc : s.NoCollision D) (hn : s.nodes p = .dated n) (hq : q ∈ n.store.members) :
    ∃ m, s.nodes q = .dated m :=
  (attributed_of_runs h hg hc).members p n hn q hq

theorem members_are_dated_exchange :
    ∃ n, Small.final.nodes 0 = .dated n ∧ 1 ∈ n.store.members ∧ ∃ m, Small.final.nodes 1 = .dated m := by
  obtain ⟨n, hn, hmem⟩ := Small.exists_member_final
  exact ⟨n, hn, hmem, members_are_dated Small.runs_exchange Small.genuine_exchange
    Small.noCollision_final hn hmem⟩

/-- An acknowledgement on record can be relied on. With genuine source addresses and local calls in
order, what a node has acknowledged is a tombstone some local call wrote, and the node now holds an
entry for the key that is at least as new. -/
theorem acks_are_covered (h : Runs (Fleet.step D proto) (start D) es s) (hg : Genuine D proto es)
    (ho : InOrder D proto es) (hc : s.NoCollision D) (hn : s.nodes p = .dated n)
    (hv : n.store.acknowledgedVersion k q = some version) :
    ∃ e m, (k, e) ∈ s.written ∧ e.isTombstone = true ∧ proto.register.versionHash e = version ∧
      s.nodes q = .dated m ∧ HashMap.Covers Entry.stamp m.store.map k e := by
  obtain ⟨e, he, ht, hversion, e', he', hle⟩ :=
    (attributed_of_runs h hg hc).acks p n hn k q version hv
  obtain ⟨m, hm, hcovers⟩ := retains_of_runs h ho q k e' he'
  exact ⟨e, m, he, ht, hversion, hm, hcovers.mono hle⟩

theorem acks_are_covered_exchange :
    ∃ n, Small.final.nodes 0 = .dated n ∧ n.store.acknowledgedVersion 5 1 = some 3 ∧
      ∃ e m, (5, e) ∈ Small.final.written ∧ e.isTombstone = true ∧
        Small.protocol.register.versionHash e = 3 ∧ Small.final.nodes 1 = .dated m ∧
        HashMap.Covers Entry.stamp m.store.map 5 e := by
  obtain ⟨_, _, hread, _⟩ := Small.final_reads
  obtain ⟨n, hn, hv⟩ := Small.exists_dated hread
  exact ⟨n, hn, hv, acks_are_covered Small.runs_exchange Small.genuine_exchange
    Small.inOrder_exchange Small.noCollision_final hn hv⟩

/-- A dated node never has more members than it admits peers. -/
theorem members_le_maxPeers (h : Runs (Fleet.step D proto) (start D) es s)
    (hn : s.nodes p = .dated n) : n.store.members.len ≤ (D.ports p).maxPeers := by
  refine h.invariant (fun _ s => ∀ p n, s.nodes p = .dated n →
    n.store.members.len ≤ (D.ports p).maxPeers) ?_ ?_ p n hn
  · intro p n hn
    simp only [start] at hn
    split at hn
    · cases hn
    · cases hn
      exact Nat.zero_le _
  · intro es s e s' ih hs q m hm
    cases steps_of_step hs with
    | @dated p n event n' out hnode hd hact =>
      by_cases hq : q = p
      · subst hq
        rw [nodes_act_self] at hm
        cases hm
        exact MapNode.step_members_le hact (ih q n hnode)
      · rw [nodes_act_of_ne hq] at hm
        exact ih q m hm
    | @reader p n event n' out hnode hd hact =>
      by_cases hq : q = p
      · subst hq
        rw [nodes_act_self] at hm
        cases hm
      · rw [nodes_act_of_ne hq] at hm
        exact ih q m hm

theorem members_le_maxPeers_exchange :
    ∃ n, Small.final.nodes 0 = .dated n ∧ 1 ∈ n.store.members ∧
      n.store.members.len ≤ (Small.deployment.ports 0).maxPeers := by
  obtain ⟨n, hn, hmem⟩ := Small.exists_member_final
  exact ⟨n, hn, hmem, members_le_maxPeers Small.runs_exchange hn⟩

end Fleet

end Reconcile
