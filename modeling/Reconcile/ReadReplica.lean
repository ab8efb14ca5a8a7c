import Reconcile.MapNode.Sound

namespace Reconcile
open Lib Replay
set_option autoImplicit true

/-- A dateless replica with its runtime: it holds states and no stamps. -/
structure ReadNode (K V P T A : Type) where
  tree : HashMap K (State V) := ∅
  replay : ReplayFilter P
  endpoint : Endpoint P
  peers : HashMap P Nat := ∅
  tasks : List (SendTask K V P T A) := []

/-- What a read replica does. The probe of a round is the random address it draws. -/
inductive ReadEvent (P : Type) where
  | datagram (sender : P) (bytes : Bytes) (moment : Moment)
  | send (task : Nat) (clock : Nat → Nat)
  | round (probe : P) (now : Nat)
  | retryIncomplete (now : Nat)
  | expire (now : Nat)
  | seed (peer : P) (now : Nat)
  | discover (resolved : List P) (own : Option P) (now : Nat)

def Message.valueUpdate : Message K V S A → Option (K × S)
  | .stateUpdate key state => some (key, state)
  | _ => none

namespace ReadNode

variable {K V P T A : Type} [LinearOrder K] [LinearOrder P] [LinearOrder T]
variable (proto : Protocol K V T A) (ports : SendPorts)

def spawn (n : ReadNode K V P T A) (tasks : List (SendTask K V P T A)) : ReadNode K V P T A :=
  { n with tasks := n.tasks ++ tasks }

/-- A plain overwrite: there is no stamp to compare. -/
def integrate (n : ReadNode K V P T A) (updates : List (K × State V)) : ReadNode K V P T A :=
  { n with tree := updates.foldl (fun tree kv => tree.insert kv.1 kv.2) n.tree }

def recordCapability (peer : P) (now : Nat) (n : ReadNode K V P T A) :
    MapMessage K V T A → ReadNode K V P T A
  | .reserved6 payload =>
    if payload = selectiveRecoveryCapability then
      { n with
        endpoint := { n.endpoint with
          recovery := n.endpoint.recovery.recordCapability peer now ports.framing ports.maxPeers } }
    else n
  | _ => n

/-- The differences found are ranges the replica would owe, and it never sends values. -/
def handleComparison (n : ReadNode K V P T A) (ranges : List A) (peer : P) (draw : Nat) :
    ReadNode K V P T A :=
  if ranges.isEmpty then n
  else
    let answer := proto.valueOnly.protocolRound n.tree ranges draw
    if answer.1.isEmpty then n
    else n.spawn [⟨peer, .control (answer.1.map .stateFingerprint), false⟩]

def handleMessages (n : ReadNode K V P T A) (payload : Bytes) (peer : P) (moment : Moment) :
    ReadNode K V P T A :=
  match proto.codec.decodeStream maxMessagesPerDatagram payload with
  | .error _ => n
  | .ok messages =>
    let n := messages.foldl (recordCapability ports peer moment.now) n
    let n := n.integrate (messages.filterMap Message.valueUpdate)
    n.handleComparison proto (messages.filterMap Message.stateSegment) peer moment.valueDraw

/-- The sender of a logical payload is recorded, whatever the payload says. -/
def complete (n : ReadNode K V P T A) (payload : Bytes) (sender : P) (moment : Moment) :
    ReadNode K V P T A :=
  let n := n.handleMessages proto ports payload sender moment
  { n with peers := n.peers.insert sender moment.now }

def admitted (n : ReadNode K V P T A) (sender : P) (bytes : Bytes) (moment : Moment) :
    ReplayFilter P × Except InboundRejection Payload :=
  admitInbound ports.primitives ports.authenticator n.replay ⟨ports.maxPeers⟩ sender bytes
    (n.peers.contains sender) n.peers.len moment.wallMs

def framed (n : ReadNode K V P T A) (replay : ReplayFilter P) (sender : P) (frame : Bytes)
    (moment : Moment) : ReadNode K V P T A × List Bytes :=
  let received := ports.receiveFrame n.endpoint sender frame moment.now
  let sent := ports.sendFrames received.1.counter received.2.2
  ({ n with replay := replay, endpoint := { received.1 with counter := sent.1 } }, sent.2)

def receive (n : ReadNode K V P T A) (sender : P) (bytes : Bytes) (moment : Moment) :
    ReadNode K V P T A × NodeOutput K V T :=
  if bufferSize < bytes.length then (n, {})
  else
    let admitted := n.admitted ports sender bytes moment
    match admitted.2 with
    | .error _ => ({ n with replay := admitted.1 }, {})
    | .ok payload =>
      let framed := n.framed ports admitted.1 sender payload.bytes moment
      match (ports.receiveFrame n.endpoint sender payload.bytes moment.now).2.1 with
      | none => (framed.1, { datagrams := framed.2 })
      | some logical =>
        (framed.1.complete proto ports logical sender moment,
          { datagrams := framed.2, completed := [logical] })

def getPeers (n : ReadNode K V P T A) (now : Nat) : List P × ReadNode K V P T A :=
  let kept := n.peers.retain fun seen => now - seen < peerExpiration
  (kept.keys, { n with peers := kept })

/-- A round goes to the known peers and to one random address, which is not recorded. -/
def startReconciliation (n : ReadNode K V P T A) (probe : P) (now : Nat) : ReadNode K V P T A :=
  let payload := appendCapability proto.codec ports.framing
    (proto.codec.encodeAll ((proto.valueOnly.initialRanges n.tree).map .stateFingerprint))
  (n.getPeers now).2.spawn
    (((n.getPeers now).1 ++ [probe]).map fun peer => ⟨peer, .encoded payload, false⟩)

def runTask (n : ReadNode K V P T A) (task : SendTask K V P T A) (clock : Nat → Nat) :
    Except FrameError (ReadNode K V P T A × NodeOutput K V T) := do
  let out ← ports.handOut proto.codec n.endpoint.recovery task.peer clock task.outgoing
  let sent := ports.sendFrames n.endpoint.counter out.frames
  return ({ n with
      endpoint := { n.endpoint with recovery := out.recovery, counter := sent.1 } },
    { payloads := out.payloads, datagrams := sent.2 })

def step (n : ReadNode K V P T A) :
    ReadEvent P → Option (ReadNode K V P T A × NodeOutput K V T)
  | .datagram sender bytes moment => some (n.receive proto ports sender bytes moment)
  | .send i clock => do
    let task ← n.tasks[i]?
    ({ n with tasks := n.tasks.eraseIdx i }.runTask proto ports task clock).toOption
  | .round probe now => some (n.startReconciliation proto ports probe now, {})
  | .retryIncomplete now =>
    let retried := ports.retryIdleIncomplete n.endpoint now
    let sent := ports.sendFrames retried.1.counter retried.2
    some ({ n with endpoint := { retried.1 with counter := sent.1 } }, { datagrams := sent.2 })
  | .expire now =>
    some ({ n with
      endpoint := { n.endpoint with
        recovery := n.endpoint.recovery.expire now ports.framing
        reassembler := (n.endpoint.reassembler.expire now).1 } }, {})
  | .seed peer now => some ({ n with peers := n.peers.insert peer now }, {})
  | .discover resolved own now =>
    some ({ n with
      peers := (resolved.filter fun addr => own ≠ some addr).foldl
        (fun peers addr => peers.insert addr now) n.peers }, {})

variable {proto ports} {hash : Bytes → TransferId} {W W' : Bytes → Prop}
variable {L L' : K → Entry T V → Prop} {n n' : ReadNode K V P T A}

def ValueOnly : MapMessage K V T A → Prop
  | .stateFingerprint _ | .reserved6 _ => True
  | _ => False

/-- The tasks of a read replica say only fingerprints of states. -/
def Sink (proto : Protocol K V T A) (n : ReadNode K V P T A) : Prop :=
  ∀ task ∈ n.tasks, task.outgoing.Says proto.codec ValueOnly

omit [LinearOrder K] [LinearOrder P] in
theorem Sink.spawn (h : n.Sink proto) {tasks : List (SendTask K V P T A)}
    (ht : ∀ task ∈ tasks, task.outgoing.Says proto.codec ValueOnly) :
    (n.spawn tasks).Sink proto := by
  intro task hin
  rcases List.mem_append.1 hin with hin | hin
  · exact h task hin
  · exact ht task hin

omit [LinearOrder K] [LinearOrder P] in
theorem Sink.handleComparison (h : n.Sink proto) (ranges : List A) (peer : P) (draw : Nat) :
    (n.handleComparison proto ranges peer draw).Sink proto := by
  unfold ReadNode.handleComparison
  split
  · exact h
  simp only
  split
  · exact h
  · apply h.spawn
    intro task ht
    rw [List.mem_singleton.1 ht]
    intro m hm
    obtain ⟨segment, _, rfl⟩ := List.mem_map.1 hm
    trivial

omit [LinearOrder K] in
theorem Sink.recordCapabilities (h : n.Sink proto) (peer : P) (now : Nat)
    (messages : List (MapMessage K V T A)) :
    (messages.foldl (ReadNode.recordCapability ports peer now) n).Sink proto := by
  induction messages generalizing n with
  | nil => exact h
  | cons m messages ih =>
    apply ih
    unfold ReadNode.recordCapability
    split
    · split <;> exact h
    · exact h

theorem Sink.handleMessages (h : n.Sink proto) (ports : SendPorts) (payload : Bytes) (peer : P)
    (moment : Moment) : (n.handleMessages proto ports payload peer moment).Sink proto := by
  unfold ReadNode.handleMessages
  split
  · exact h
  · next messages hmessages =>
    apply Sink.handleComparison
    exact h.recordCapabilities peer moment.now messages

omit [LinearOrder K] [LinearOrder P] in
theorem Sink.startReconciliation (h : n.Sink proto) (probe : P) (now : Nat) :
    (n.startReconciliation proto ports probe now).Sink proto := by
  have hpruned : (n.getPeers now).2.Sink proto := h
  apply hpruned.spawn
  intro task ht
  obtain ⟨peer, _, rfl⟩ := List.mem_map.1 ht
  apply speaks_appendCapability fun _ => trivial
  apply MessageCodec.speaks_encodeAll
  intro m hm
  obtain ⟨segment, _, rfl⟩ := List.mem_map.1 hm
  trivial

structure Sound (hash : Bytes → TransferId) (W : Bytes → Prop) (L : K → Entry T V → Prop)
    (n : ReadNode K V P T A) : Prop where
  recovery : n.endpoint.recovery.KeepsFrom hash W
  tree : ∀ k s, n.tree.lookup k = some s → ∃ e, L k e ∧ e.project = s

omit [LinearOrder T] in
theorem Sound.mono (h : n.Sound hash W L) (hW : ∀ w, W w → W' w) (hL : ∀ k e, L k e → L' k e) :
    n.Sound hash W' L' where
  recovery := h.recovery.mono hW
  tree k s hs := by
    obtain ⟨e, he, hp⟩ := h.tree k s hs
    exact ⟨e, hL k e he, hp⟩

omit [LinearOrder T] in
theorem Sound.integrate (h : n.Sound hash W L) {updates : List (K × State V)}
    (hu : ∀ kv ∈ updates, ∃ e, L kv.1 e ∧ e.project = kv.2) :
    (n.integrate updates).Sound hash W L where
  recovery := h.recovery
  tree k s hs := by
    rcases HashMap.lookup_foldl_sound hs with hs | hs
    · exact h.tree k s hs
    · exact hu _ hs

omit [LinearOrder T] in
theorem Sound.recordCapability (h : n.Sound hash W L) (peer : P) (now : Nat)
    (m : MapMessage K V T A) : (recordCapability ports peer now n m).Sound hash W L := by
  unfold ReadNode.recordCapability
  split
  · split
    · exact ⟨h.recovery.pruned (RecoveryBook.pruned_recordCapability _ _ _ _ _), h.tree⟩
    · exact h
  · exact h

omit [LinearOrder T] in
theorem Sound.recordCapabilities (h : n.Sound hash W L) (peer : P) (now : Nat)
    (messages : List (MapMessage K V T A)) :
    (messages.foldl (ReadNode.recordCapability ports peer now) n).Sound hash W L := by
  induction messages generalizing n with
  | nil => exact h
  | cons m messages ih => exact ih (h.recordCapability peer now m)

theorem Sound.handleComparison (h : n.Sound hash W L) (proto : Protocol K V T A) (ranges : List A)
    (peer : P) (draw : Nat) : (n.handleComparison proto ranges peer draw).Sound hash W L := by
  unfold ReadNode.handleComparison
  split
  · exact h
  simp only
  split
  · exact h
  · exact ⟨h.recovery, h.tree⟩

theorem Sound.handleMessages (h : n.Sound hash W L) (ports : SendPorts)
    {H : K → Entry T V → Prop} (hp : proto.codec.Speaks (Backed proto.register L H) payload)
    (peer : P) (moment : Moment) :
    (n.handleMessages proto ports payload peer moment).Sound hash W L := by
  unfold ReadNode.handleMessages
  split
  · exact h
  · next messages hmessages =>
    apply Sound.handleComparison
    apply (h.recordCapabilities peer moment.now messages).integrate
    intro kv hkv
    obtain ⟨m, hm, he⟩ := List.mem_filterMap.1 hkv
    have hbacked := hp.decodeStream hmessages m hm
    cases m <;> cases he
    exact hbacked

theorem Sound.complete (h : n.Sound hash W L) {H : K → Entry T V → Prop}
    (hp : proto.codec.Speaks (Backed proto.register L H) payload) (sender : P) (moment : Moment) :
    (n.complete proto ports payload sender moment).Sound hash W L := by
  have hhandled := h.handleMessages ports hp sender moment
  exact ⟨hhandled.recovery, hhandled.tree⟩

inductive Receives (proto : Protocol K V T A) (ports : SendPorts) (n : ReadNode K V P T A)
    (sender : P) (bytes : Bytes) (moment : Moment) :
    ReadNode K V P T A × NodeOutput K V T → Prop where
  | dropped (filter : ReplayFilter P) :
    Receives proto ports n sender bytes moment ({ n with replay := filter }, {})
  | pending (hadmitted : (n.admitted ports sender bytes moment).2 = .ok payload)
    (hreplay : filter = (n.admitted ports sender bytes moment).1) :
    Receives proto ports n sender bytes moment
      ((n.framed ports filter sender payload.bytes moment).1,
        { datagrams := (n.framed ports filter sender payload.bytes moment).2 })
  | completed (hadmitted : (n.admitted ports sender bytes moment).2 = .ok payload)
    (hreplay : filter = (n.admitted ports sender bytes moment).1)
    (hlogical : (ports.receiveFrame n.endpoint sender payload.bytes moment.now).2.1 =
      some logical) :
    Receives proto ports n sender bytes moment
      ((n.framed ports filter sender payload.bytes moment).1.complete proto ports logical sender
          moment,
        { datagrams := (n.framed ports filter sender payload.bytes moment).2
          completed := [logical] })

theorem receives (proto : Protocol K V T A) (ports : SendPorts) (n : ReadNode K V P T A)
    (sender : P) (bytes : Bytes) (moment : Moment) :
    Receives proto ports n sender bytes moment (n.receive proto ports sender bytes moment) := by
  unfold ReadNode.receive
  split
  · exact .dropped n.replay
  simp only
  split
  · exact .dropped _
  · next payload hadmitted =>
    split
    · exact .pending hadmitted rfl
    · next logical hlogical => exact .completed hadmitted rfl hlogical

omit [LinearOrder K] in
theorem runTask_ok (h : n.runTask proto ports task clock = .ok (n', out)) :
    ∃ handed, ports.handOut proto.codec n.endpoint.recovery task.peer clock task.outgoing =
        .ok handed ∧
      n' = { n with
        endpoint := { n.endpoint with
          recovery := handed.recovery
          counter := (ports.sendFrames n.endpoint.counter handed.frames).1 } } ∧
      out = { payloads := handed.payloads
              datagrams := (ports.sendFrames n.endpoint.counter handed.frames).2 } := by
  rw [ReadNode.runTask] at h
  cases hout : ports.handOut proto.codec n.endpoint.recovery task.peer clock task.outgoing with
  | error e =>
    rw [hout] at h
    cases h
  | ok handed =>
    rw [hout] at h
    cases h
    exact ⟨handed, rfl, rfl, rfl⟩

theorem step_send (h : n.step proto ports (.send i clock) = some (n', out)) :
    ∃ task, n.tasks[i]? = some task ∧
      ({ n with tasks := n.tasks.eraseIdx i } : ReadNode K V P T A).runTask proto ports task clock =
        .ok (n', out) := by
  obtain ⟨task, htask, h⟩ := Option.bind_eq_some_iff.1 h
  refine ⟨task, htask, ?_⟩
  cases hrun : ({ n with tasks := n.tasks.eraseIdx i } : ReadNode K V P T A).runTask proto ports
      task clock with
  | error e =>
    rw [hrun] at h
    cases h
  | ok ran =>
    rw [hrun] at h
    cases h
    rfl

theorem Sink.receive (h : n.Sink proto)
    (hr : Receives proto ports n sender bytes moment (n', out)) : n'.Sink proto := by
  cases hr with
  | dropped => exact h
  | pending => exact h
  | @completed payload filter logical hadmitted hreplay hlogical =>
    have hframed : (n.framed ports filter sender payload.bytes moment).1.Sink proto := h
    exact hframed.handleMessages ports logical sender moment

/-- A step hands over payloads of fingerprints only, whatever the replica has received. -/
theorem Sink.step (h : n.Sink proto) (hs : n.step proto ports event = some (n', out)) :
    n'.Sink proto ∧ ∀ w ∈ out.payloads, proto.codec.Speaks ValueOnly w := by
  cases event with
  | datagram sender bytes moment =>
    have hr := receives proto ports n sender bytes moment
    rw [Option.some.inj hs] at hr
    refine ⟨h.receive hr, ?_⟩
    cases hr <;> exact nofun
  | send i clock =>
    obtain ⟨task, htask, hs⟩ := step_send hs
    obtain ⟨handed, hout, rfl, rfl⟩ := runTask_ok hs
    exact ⟨fun t ht => h t (List.mem_of_mem_eraseIdx ht), SendPorts.handOut_speaks
      (fun _ => trivial) (h task (List.mem_of_getElem? htask)) hout⟩
  | round probe now =>
    cases hs
    exact ⟨h.startReconciliation probe now, nofun⟩
  | retryIncomplete now =>
    cases hs
    exact ⟨h, nofun⟩
  | expire now =>
    cases hs
    exact ⟨h, nofun⟩
  | seed peer now =>
    cases hs
    exact ⟨h, nofun⟩
  | discover resolved own now =>
    cases hs
    exact ⟨h, nofun⟩

omit [LinearOrder T] in
theorem Sound.framed (h : n.Sound ports.hash W L) (replay : ReplayFilter P) (sender : P)
    (frame : Bytes) (moment : Moment) :
    (n.framed ports replay sender frame moment).1.Sound ports.hash W L ∧
      ∀ datagram ∈ (n.framed ports replay sender frame moment).2, ports.Sealed W datagram := by
  obtain ⟨hrecovery, hframes⟩ := ports.receiveFrame_carries h.recovery sender frame moment.now
  exact ⟨⟨hrecovery, h.tree⟩, SendPorts.sealed_sendFrames hframes _⟩

theorem Sound.receive (h : n.Sound ports.hash W L)
    (hr : Receives proto ports n sender bytes moment (n', out)) {H : K → Entry T V → Prop}
    (hin : ∀ w ∈ out.completed, proto.codec.Speaks (Backed proto.register L H) w) :
    n'.Sound ports.hash W L ∧ ∀ datagram ∈ out.datagrams, ports.Sealed W datagram := by
  cases hr with
  | dropped => exact ⟨⟨h.recovery, h.tree⟩, nofun⟩
  | pending hadmitted hreplay => exact h.framed _ sender _ moment
  | completed hadmitted hreplay hlogical =>
    obtain ⟨hframed, hsealed⟩ := h.framed (n.admitted ports sender bytes moment).1 sender _ moment
    exact ⟨hreplay ▸ hframed.complete (hin _ List.mem_cons_self) sender moment, hreplay ▸ hsealed⟩

theorem Sound.runTask (h : n.Sound ports.hash W L)
    (hs : n.runTask proto ports task clock = .ok (n', out)) (hW : ∀ w ∈ out.payloads, W w) :
    n'.Sound ports.hash W L ∧ ∀ datagram ∈ out.datagrams, ports.Sealed W datagram := by
  obtain ⟨handed, hout, rfl, rfl⟩ := runTask_ok hs
  obtain ⟨hrecovery, hframes⟩ := SendPorts.handOut_carries h.recovery hout
  have hin : ∀ w, SendPorts.OrHanded W handed.payloads w → W w := by
    rintro w (hw | hw)
    · exact hw
    · exact hW w hw
  refine ⟨⟨hrecovery.mono hin, h.tree⟩, ?_⟩
  intro datagram hd
  exact (SendPorts.sealed_sendFrames hframes _ datagram hd).mono hin

theorem Sound.step (h : n.Sound ports.hash W L)
    (hs : n.step proto ports event = some (n', out)) {H : K → Entry T V → Prop}
    (hW : ∀ w ∈ out.payloads, W w)
    (hin : ∀ w ∈ out.completed, proto.codec.Speaks (Backed proto.register L H) w) :
    n'.Sound ports.hash W L ∧ ∀ datagram ∈ out.datagrams, ports.Sealed W datagram := by
  cases event with
  | datagram sender bytes moment =>
    have hr := receives proto ports n sender bytes moment
    rw [Option.some.inj hs] at hr
    exact h.receive hr hin
  | send i clock =>
    obtain ⟨task, _, hs⟩ := step_send hs
    have herased : Sound ports.hash W L { n with tasks := n.tasks.eraseIdx i } :=
      ⟨h.recovery, h.tree⟩
    exact herased.runTask hs hW
  | round probe now =>
    cases hs
    exact ⟨⟨h.recovery, h.tree⟩, nofun⟩
  | retryIncomplete now =>
    cases hs
    obtain ⟨hrecovery, hframes⟩ := ports.retryIdleIncomplete_carries h.recovery now
    exact ⟨⟨hrecovery, h.tree⟩, SendPorts.sealed_sendFrames hframes _⟩
  | expire now =>
    cases hs
    exact ⟨⟨h.recovery.pruned (RecoveryBook.pruned_expire _ _ _), h.tree⟩, nofun⟩
  | seed peer now =>
    cases hs
    exact ⟨⟨h.recovery, h.tree⟩, nofun⟩
  | discover resolved own now =>
    cases hs
    exact ⟨⟨h.recovery, h.tree⟩, nofun⟩

theorem step_completed (hs : n.step proto ports event = some (n', out))
    (hw : logical ∈ out.completed) : ∃ sender bytes moment,
      event = .datagram sender bytes moment ∧ ports.Completes n.endpoint bytes logical := by
  cases event with
  | datagram sender bytes moment =>
    have hr := receives proto ports n sender bytes moment
    rw [Option.some.inj hs] at hr
    cases hr with
    | dropped => cases hw
    | pending => cases hw
    | @completed payload filter logical hadmitted hreplay hlogical =>
      obtain ⟨opened, hopen, hversion, _⟩ := admitInbound_ok hadmitted
      rw [List.mem_singleton.1 hw]
      exact ⟨sender, bytes, moment, rfl, opened, payload, sender, moment.now, hopen, hversion,
        hlogical⟩
  | send i clock =>
    obtain ⟨task, _, hs⟩ := step_send hs
    obtain ⟨handed, _, _, rfl⟩ := runTask_ok hs
    cases hw
  | round probe now => cases hs; cases hw
  | retryIncomplete now => cases hs; cases hw
  | expire now => cases hs; cases hw
  | seed peer now => cases hs; cases hw
  | discover resolved own now => cases hs; cases hw

end ReadNode

end Reconcile
