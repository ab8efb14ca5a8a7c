import Reconcile.Dominance
import Reconcile.Roster
import Reconcile.Routes.Confirmation
import Reconcile.SignedNode.Sending

namespace Reconcile
open Lib Lib.Action
set_option autoImplicit true

variable {K V A : Type} {E : SignedSuite K V}

namespace SignedNode

def settings (s : SignedNode K V A) : FramingConfig × Nat × Nat :=
  (s.framing, s.maxFramesPerTick, s.boundary.payloadBudget)

def inner (s : SignedNode K V A) : SignedCausal K V PeerId × FramingConfig × Nat × Nat :=
  (s.toSignedCausal, s.settings)

theorem ensureEntryFits_congr {s s' : SignedNode K V A} (h : s'.settings = s.settings) :
    s'.ensureEntryFits E = s.ensureEntryFits E := by
  obtain ⟨hframing, hrest⟩ := Prod.mk.inj h
  obtain ⟨hframes, hbudget⟩ := Prod.mk.inj hrest
  funext key entry
  simp only [ensureEntryFits, requiredFragments, hframing, hframes, hbudget]

theorem inner_eq {s s' : SignedNode K V A} (hcausal : s'.toSignedCausal = s.toSignedCausal)
    (hframing : s'.framing = s.framing) (hframes : s'.maxFramesPerTick = s.maxFramesPerTick)
    (halike : s.boundary.Alike s'.boundary) : s'.inner = s.inner := by
  rw [inner, settings, hcausal, hframing, hframes, halike.payloadBudget, inner, settings]

def Blind {γ : Type} (f : SignedNode K V A → γ) : Prop := ∀ s s', s.Emits s' → f s' = f s

theorem blind_inner : Blind (inner : SignedNode K V A → _) := by
  rintro s _ ⟨_, _, halike, rfl⟩
  exact inner_eq rfl rfl rfl halike

section

variable {γ : Type} {f : SignedNode K V A → γ} (hf : Blind f)
include hf

theorem keeps_routedFrame (peer : PeerId) (r : Readings) (frame : Bytes) :
    Keeps f (routedFrame E peer r frame) := fun s =>
  hf _ _ ((s.yields_routedFrame peer r frame).after (fun _ _ h => h.2) fun _ _ h => h.2)

theorem keeps_routedFragment (peer : PeerId) (r : Readings) (id : TransferId) (totalLen : Nat)
    (piece : Nat × Bytes) : Keeps f (routedFragment E peer r id totalLen piece) :=
  (Keeps.ofExcept _ _).bind fun frame => keeps_routedFrame hf peer r frame

theorem keeps_sendEncoded (peer : PeerId) (bytes : Bytes) (r : Readings) :
    Keeps f (sendEncoded E peer bytes r) := by
  refine .get_bind fun s => ?_
  refine Keeps.bind (.ofExcept _ _) (fun count => ?_) s
  split
  · exact (keeps_routedFrame hf peer r _).bind fun _ => .pure _
  · exact .modify_bind (fun s => hf _ _ (emits_retainTransfer peer _ bytes r.now s))
      (.mapM (fun piece => keeps_routedFragment hf peer r _ _ piece) _)

theorem keeps_resendMissing (peer : PeerId) (id : TransferId) (ranges : List (Nat × Nat))
    (r : Readings) : Keeps f (resendMissing E peer id ranges r) := by
  intro s
  simp only [resendMissing, after_get_bind, after_set_bind]
  have hset : f { s with recovery := (s.recovery.payloadForReport peer id r.now s.framing).1 } =
      f s := hf _ _ ⟨_, _, .refl _, rfl⟩
  split
  · exact hset
  · exact (Keeps.mapM (fun piece => keeps_routedFragment hf peer r _ _ piece) _ _).trans hset

theorem keeps_requestLoop (r : Readings) (requests : List (MissingRequest PeerId)) (sent : Nat) :
    Keeps f (requestLoop E r requests sent) := fun s =>
  hf _ _ ((s.yields_requestLoop r requests sent).after (fun _ _ h => h.2) fun _ _ h => h.2)

theorem keeps_probe (endpoint : A) (r : Readings) : Keeps f (probe E endpoint r) := by
  intro s
  simp only [probe, after_get_bind, after_set_bind, after_ofExcept]
  exact hf _ _ ⟨_, _, s.toIngress.sealFrame_alike r _, rfl⟩

end

theorem keeps_retryMissing (r : Readings) :
    Keeps inner (retryMissing E r : NodeM K V A _) := by
  intro s
  simp only [retryMissing, after_get_bind]
  split
  · simp only [after_set_bind]
    exact keeps_requestLoop blind_inner r _ 0 _
  · rfl

variable [LinearOrder K]

theorem keeps_updateLoop (r : Readings) (peers : List PeerId) (sent : Nat) :
    Keeps inner (updateLoop E r peers sent : NodeM K V A _) := by
  induction peers generalizing sent with
  | nil => exact .pure []
  | cons peer peers ih =>
    refine .get_bind fun s => ?_
    split
    · rfl
    · refine Keeps.bind (.ofExcept _ _) (fun frames => ?_) s
      split
      · exact .pure []
      · refine (keeps_sendEncoded blind_inner peer _ r).bind fun datagrams => ?_
        exact .modify_bind (fun _ => rfl) ((ih _).bind fun _ => .pure _)

theorem keeps_reconcile (r : Readings) : Keeps inner (reconcile E r : NodeM K V A _) := by
  refine .modify_bind (fun _ => rfl) ?_
  refine (keeps_retryMissing r).bind fun outgoing => ?_
  refine .get_bind fun s => ?_
  simp only
  split
  · rfl
  · rw [after_modify_bind, after_bind_pure]
    exact keeps_updateLoop r _ _ _

/-- The causal state takes the message, whether or not the reply to it can be sent. -/
theorem inner_handleVerifiedMessage (s : SignedNode K V A) (peer : PeerId)
    (message : SignedMessage K V Timestamp) (r : Readings) (pt : PhysicalTime) :
    (after (handleVerifiedMessage E peer message r pt) s).inner =
      ((s.toSignedCausal.handleVerifiedMessage E.hlc E.rsos peer message pt).2, s.settings) := by
  simp only [handleVerifiedMessage, after_get_bind, after_set_bind]
  split
  · rfl
  · exact keeps_sendEncoded blind_inner peer _ r _

theorem inner_receiveReport (s : SignedNode K V A) (peer : PeerId) (report : ReceiveReport)
    (r : Readings) (pt : PhysicalTime) :
    (after (receiveReport E peer report r pt) s).inner = s.inner ∨
      ∃ payload message, report.outcome = .ok (.complete payload) ∧
        E.deserialize payload = some message ∧ (after (receiveReport E peer report r pt) s).inner =
          ((s.toSignedCausal.handleVerifiedMessage E.hlc E.rsos peer message pt).2, s.settings) := by
  unfold receiveReport
  split
  · next payload hout =>
    split
    · exact .inl rfl
    · next message hmessage =>
      split
      · rcases after_bind (routedFrame E peer r _) _ s with h | ⟨ack, h⟩
        · rw [h]
          exact .inl (keeps_routedFrame blind_inner peer r _ s)
        · obtain ⟨hcausal, hsettings⟩ := Prod.mk.inj (keeps_routedFrame (E := E) blind_inner peer r _ s)
          rw [h, after_bind_pure, inner_handleVerifiedMessage, hcausal, hsettings]
          exact .inr ⟨payload, message, hout, hmessage, rfl⟩
      · exact .inr ⟨payload, message, hout, hmessage,
          inner_handleVerifiedMessage s peer message r pt⟩
  · exact .inl rfl

variable [DecidableEq A]

omit [LinearOrder K] in
def delivered (E : SignedSuite K V) (s : SignedNode K V A) (source : A) (datagram : Bytes)
    (r : Readings) : Option (PeerId × SignedMessage K V Timestamp) :=
  match (s.toIngress.receive E.primitives E.transferId datagram source s.peerState r).1 with
  | .ok (.framed peer report) =>
    match report.outcome with
    | .ok (.complete payload) => (E.deserialize payload).map (peer, ·)
    | _ => none
  | _ => none

/-- A datagram reaches the causal state only as a message of its verified signer, sent from the
signer's confirmed route. -/
theorem inner_receive (s : SignedNode K V A) (source : A) (datagram : Bytes) (r : Readings)
    (pt : PhysicalTime) :
    (after (receive E source datagram r pt) s).inner = s.inner ∨
      ∃ peer frame message,
        (s.boundary.open E.primitives s.peerState r.wallMs datagram).1 = .ok (peer, frame) ∧
        s.routes.route peer = some source ∧ s.delivered E source datagram r = some (peer, message) ∧
        (after (receive E source datagram r pt) s).inner =
          ((s.toSignedCausal.handleVerifiedMessage E.hlc E.rsos peer message pt).2,
            s.settings) := by
  have halike := @Ingress.receive_alike A _ E.primitives E.transferId s.toIngress datagram source
    s.peerState r
  have hcases := @Ingress.receive_cases A _ E.primitives E.transferId s.toIngress datagram source
    s.peerState r
  simp only [receive, after_get_bind, after_set_bind, delivered]
  generalize s.toIngress.receive E.primitives E.transferId datagram source s.peerState r =
    received at halike hcases ⊢
  obtain ⟨out, i'⟩ := received
  have hset : inner { s with toIngress := i' } = s.inner := inner_eq rfl rfl rfl halike
  rcases hcases with ⟨err, _, hout, _⟩ | ⟨peer, frame, hopen, heffect⟩
  · cases hout
    exact .inl hset
  · cases heffect with
    | quiet hout =>
      left
      simp only
      split <;> first | exact hset | cases hout
    | challenged => exact .inl hset
    | confirmed => exact .inl hset
    | recovery hroute control =>
      left
      cases control with
      | missing id ranges => exact (keeps_resendMissing blind_inner peer id ranges r _).trans hset
      | completeAck id => exact hset
    | framed hroute =>
      have hsettings := (Prod.mk.inj hset).2
      rcases inner_receiveReport (E := E) { s with toIngress := _ } peer _ r pt with
        h | ⟨payload, message, hout, hmessage, h⟩
      · exact .inl (h.trans hset)
      · rw [hsettings] at h
        refine .inr ⟨peer, frame, message, hopen, hroute, ?_, h⟩
        simp only [hout, hmessage, Option.map_some]

omit [LinearOrder K] in
/-- What a call can be to the causal state: the operation it names, the message that its datagram
completes, nothing at all, or a change of the journal alone, which only a snapshot makes. -/
inductive Causes (E : SignedSuite K V) (s : SignedNode K V A) :
    NodeCall K V A → CausalEvent K V PeerId → Prop where
  | write (w : LocalWrite K V) (pt : PhysicalTime) : Causes E s (.write w pt) (.write w pt)
  | decommission (peer : PeerId) : Causes E s (.decommission peer) (.decommission peer)
  | collect (key : K) : Causes E s (.collect key) (.collect key)
  | message (pt : PhysicalTime) (h : s.delivered E source datagram r = some (peer, message)) :
    Causes E s (.receive source datagram r pt) (.message peer message pt)
  | quiet (call : NodeCall K V A) : Causes E s call (.journal s.generations)
  | snapshot (backend : Backend K V) (g : GenerationState K V PeerId Timestamp) :
    Causes E s (.snapshotNow backend) (.journal g)

omit [DecidableEq A] in
/-- A snapshot changes nothing of the node but the generations of its journal. -/
theorem exists_after_snapshotNow (s : SignedNode K V A) (backend : Backend K V) :
    ∃ g, after (snapshotNow backend) s = { s with generations := g } := by
  have hcommit (frozen) : ∃ g, commitFrozen frozen
      { s with generations := s.generations.freeze.2 } = { s with generations := g } := by
    cases frozen with
    | none => exact ⟨_, rfl⟩
    | some generation => exact ⟨_, rfl⟩
  simp only [snapshotNow, after_get_bind, after_set_bind]
  cases backend.trySaveDelta (s.generations.freeze.1.map (·.persistenceDelta)) with
  | error err => exact ⟨_, rfl⟩
  | ok saved =>
    cases saved with
    | true => exact hcommit _
    | false =>
      cases backend.save s.toCausalState.toPersisted with
      | error err => exact ⟨_, rfl⟩
      | ok => exact hcommit _

theorem inner_step (s : SignedNode K V A) (call : NodeCall K V A) :
    ∃ ev, Causes E s call ev ∧ (s.step E call).inner =
      (s.toSignedCausal.step E.hlc (s.ensureEntryFits E) E.rsos ev, s.settings) := by
  cases call with
  | write w pt =>
    refine ⟨_, .write w pt, ?_⟩
    simp only [step, write, after_get_bind, after_set_bind, after_ofExcept]
    rfl
  | decommission peer => exact ⟨_, .decommission peer, rfl⟩
  | collect key => exact ⟨_, .collect key, rfl⟩
  | receive source datagram r pt =>
    rcases s.inner_receive (E := E) source datagram r pt with h | ⟨peer, _, message, _, _, hd, h⟩
    · exact ⟨_, .quiet _, h⟩
    · exact ⟨_, .message pt hd, h⟩
  | reconcile r => exact ⟨_, .quiet _, keeps_reconcile r s⟩
  | probe endpoint r => exact ⟨_, .quiet _, keeps_probe blind_inner endpoint r s⟩
  | snapshotNow backend =>
    obtain ⟨g, hg⟩ := s.exists_after_snapshotNow backend
    refine ⟨_, .snapshot backend g, ?_⟩
    simp only [step, hg]
    rfl

def EachCall (E : SignedSuite K V) (P : SignedNode K V A → NodeCall K V A → Prop)
    (s : SignedNode K V A) (calls : List (NodeCall K V A)) : Prop :=
  ∀ before call, before ++ [call] <+: calls → P (before.foldl (step E) s) call

theorem EachCall.init {P : SignedNode K V A → NodeCall K V A → Prop} {s : SignedNode K V A}
    (h : EachCall E P s (calls ++ [call])) : EachCall E P s calls :=
  fun before c hb => h before c (hb.trans (List.prefix_append calls [call]))

theorem EachCall.last {P : SignedNode K V A → NodeCall K V A → Prop} {s : SignedNode K V A}
    (h : EachCall E P s (calls ++ [call])) : P (calls.foldl (step E) s) call :=
  h calls call (List.prefix_refl _)

omit [LinearOrder K] in
/-- The clock can pass the update, if any, that a call has it observe. -/
def passes (E : SignedSuite K V) (s : SignedNode K V A) : NodeCall K V A → Bool
  | .receive source datagram r pt =>
    (s.delivered E source datagram r).all fun m => s.toSignedCausal.passes (.message m.1 m.2 pt)
  | _ => true

omit [LinearOrder K] in
theorem Causes.passes {s : SignedNode K V A} (h : Causes E s call ev)
    (hp : s.passes E call = true) : s.toSignedCausal.passes ev = true := by
  cases h with
  | message pt hd =>
    rw [SignedNode.passes, hd, Option.all_some] at hp
    exact hp
  | write => rfl
  | decommission => rfl
  | collect => rfl
  | quiet => rfl
  | snapshot => rfl

theorem causal_run (s : SignedNode K V A) (calls : List (NodeCall K V A)) :
    ∃ es, SignedCausal.Run E.hlc E.rsos (s.ensureEntryFits E) s.toSignedCausal es
      (calls.foldl (step E) s).toSignedCausal := by
  induction calls generalizing s with
  | nil => exact ⟨[], .start⟩
  | cons call calls ih =>
    obtain ⟨ev, _, he⟩ := s.inner_step (E := E) call
    obtain ⟨hcausal, hsettings⟩ := Prod.mk.inj he
    obtain ⟨es, hr⟩ := ih (s.step E call)
    rw [ensureEntryFits_congr hsettings] at hr
    exact ⟨[ev] ++ es, (Runs.start.snoc (congrArg some hcausal.symm)).append hr⟩

theorem rostered_run {s : SignedNode K V A} (h : s.Rostered) (calls : List (NodeCall K V A)) :
    (calls.foldl (step E) s).Rostered := by
  obtain ⟨es, hr⟩ := s.causal_run (E := E) calls
  refine hr.invariant (fun _ t => t.Rostered) h ?_
  rintro _ t ev _ ht hs
  cases hs
  exact SignedCausal.rostered_step ht ev

omit [DecidableEq A] in
theorem new_eq_ok {s : SignedNode K V A} :
    new E config clusterKey signer clock readings loaded = .ok s ↔
      overlaps config (E.primitives.peerId signer) = false ∧
      ¬(config.maxPeers < config.authorities.len ∨
        config.maxReplaySenders < config.authorities.len + config.readers.len) ∧
      ∃ boundary stored causal,
        Boundary.new (.enabled ⟨clusterKey, []⟩) signer (allowlist config) config.freshnessWindow
          config.maxReplaySenders config.maxPeers config.framing.datagramPayloadBudget =
            .ok boundary ∧
        ¬(boundary.payloadBudget ≤ fragmentHeaderLen ∨ boundary.payloadBudget < 65) ∧
        validLimits config = true ∧ loaded = .ok stored ∧
        SignedCausal.restore E.hlc config.toSignedRoles clock readings stored = .ok causal ∧
        s = assemble config boundary causal := by
  constructor
  · intro h
    unfold new at h
    split at h
    · cases h
    next hoverlaps =>
    split at h
    · cases h
    next hlimits =>
    split at h
    · cases h
    next boundary hboundary =>
    split at h
    · cases h
    next hbudget =>
    split at h
    · cases h
    next hvalid =>
    split at h
    · cases h
    next stored =>
    split at h
    · cases h
    next causal hcausal =>
    cases h
    exact ⟨Bool.eq_false_iff.2 hoverlaps, hlimits, boundary, stored, causal, hboundary, hbudget,
      by simpa using hvalid, rfl, hcausal, rfl⟩
  · rintro ⟨hoverlaps, hlimits, boundary, stored, causal, hboundary, hbudget, hvalid, rfl, hcausal,
      rfl⟩
    simp only [new, hoverlaps, hlimits, hboundary, hbudget, hvalid, hcausal, Bool.false_eq_true,
      Bool.not_true, ↓reduceIte]

theorem handleVerifiedMessage_foreign {s : SignedCausal K V PeerId} (h : s.Rostered)
    (hp : s.authorities.contains peer = false) (m : SignedMessage K V Timestamp)
    (pt : PhysicalTime) : (s.handleVerifiedMessage H R peer m pt).2 = s := by
  cases m with
  | hello => rfl
  | update key entry =>
    simp only [SignedCausal.handleVerifiedMessage, SignedReplica.handleVerifiedMessage,
      SignedCausal.observed, hp, Bool.false_eq_true, ↓reduceIte]
  | ack key version =>
    have hmember : s.members.contains peer = false := by
      rw [h.members, hp, Bool.and_false]
    simp only [SignedCausal.handleVerifiedMessage, SignedReplica.handleVerifiedMessage,
      SignedReplica.acceptAck, SignedCausal.observed, hmember, Bool.false_eq_true, ↓reduceIte]

/-- In every state a node reaches, a datagram changes the causal state, its journal or the clock
only if its verified signer is then an authority and it comes from that signer's confirmed route. -/
theorem receive_isolated {s₀ s : SignedNode K V A} {calls : List (NodeCall K V A)}
    (h₀ : new E config clusterKey signer clock readings loaded = .ok s₀)
    (hr : calls.foldl (step E) s₀ = s) (source : A) (datagram : Bytes)
    (hd : ∀ peer payload, s.boundary.authenticate E.primitives datagram = .ok (peer, payload) →
      s.authorities.contains peer = false ∨ s.routes.route peer ≠ some source)
    (r : Readings) (pt : PhysicalTime) :
    (after (receive E source datagram r pt) s).toSignedCausal = s.toSignedCausal := by
  rcases s.inner_receive (E := E) source datagram r pt with
    h | ⟨peer, frame, message, hopen, hroute, _, h⟩
  · exact (Prod.mk.inj h).1
  · obtain ⟨payload, hauth, _⟩ := Boundary.open_eq_ok hopen
    rcases hd peer payload hauth with hp | hp
    · obtain ⟨_, _, boundary, stored, causal, _, _, _, _, hrestore, rfl⟩ := new_eq_ok.1 h₀
      have hrostered : s.Rostered := hr ▸ rostered_run (SignedCausal.rostered_restore hrestore) calls
      rw [(Prod.mk.inj h).1]
      exact handleVerifiedMessage_foreign hrostered hp message pt
    · exact absurd hroute hp

open Boundary Ingress SignedCausal

/-- Encodings with one message that is not a hello: an update of key 1. -/
def plainSuite : SignedSuite Nat Nat where
  primitives := unchecked
  transferId := noHash
  serialize m := match m with
    | .update _ _ => [5]
    | _ => [0]
  deserialize bytes :=
    if bytes = [5] then some (.update 1 (.present ⟨⟨900, 0⟩, 7⟩ 10)) else none
  hlc := .standard
  rsos := register

def pairConfig : SignedConfig where
  authorities := HashMap.ofList [(zeros 32, ())]
  framing := { datagramPayloadBudget := 300 }

def pair : SignedNode Nat Nat Nat :=
  assemble pairConfig
    { mirror with
      signer := nines
      allowlist := pairConfig.authorities
      replayPolicy := ⟨300000000000, 512⟩
      maxPeers := 256 }
    { members := pairConfig.authorities
      generations := GenerationState.transact {} [.member (zeros 32) true]
      authorities := pairConfig.authorities
      clock := { nodeId := 1 } }

theorem new_pair : new plainSuite pairConfig (zeros 32) nines { nodeId := 1 } (fun _ => 0)
    (.ok none) = .ok pair := rfl

def updateCall : SealCall := ⟨1000, Boundary.second_lt, zeros 24, writeComplete [5]⟩

def updateDatagram : Bytes := datagramOf (answering.advance answerCall) updateCall

def confirming : List (NodeCall Nat Nat Nat) :=
  [.receive 7 (datagramOf mirror helloCall) (readingsAt 0 nines) 1000,
    .receive 7 (datagramOf answering answerCall) (readingsAt 10 nines) 1000]

def retired : List (NodeCall Nat Nat Nat) := confirming ++ [.decommission (zeros 32)]

/-- Its update is stored; once it is retired, the same update from the same address is not. -/
theorem receive_isolated_retired :
    ((after (receive plainSuite 7 updateDatagram (readingsAt 20 nines) 1000)
      (confirming.foldl (step plainSuite) pair)).entries.lookup 1).isSome = true ∧
    (after (receive plainSuite 7 updateDatagram (readingsAt 20 nines) 1000)
      (retired.foldl (step plainSuite) pair)).toSignedCausal =
        (retired.foldl (step plainSuite) pair).toSignedCausal := by
  have hnone : (retired.foldl (step plainSuite) pair).authorities.entries.isEmpty = true := by
    decide +kernel
  refine ⟨by decide +kernel, ?_⟩
  refine receive_isolated new_pair rfl 7 updateDatagram (fun peer _ _ => .inl ?_) _ _
  rw [HashMap.contains, lookup_of_isEmpty hnone peer]
  rfl

end SignedNode

end Reconcile
