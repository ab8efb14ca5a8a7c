import Reconcile.MapNode.Members
import Reconcile.ReadReplica

namespace Reconcile
open Lib Replay
set_option autoImplicit true

/-- The configuration of a cluster. Every node uses the same primitives and hash, and opens what any
other seals. -/
structure Deployment (P : Type) where
  ports : P → SendPorts
  reads : P → Bool
  window : P → Nat
  replay : P → ReplayFilter P
  reassembler : P → Reassembler P
  primitives_eq : ∀ p q, (ports p).primitives = (ports q).primitives
  hash_eq : ∀ p q, (ports p).hash = (ports q).hash
  shares : ∀ p q, (ports p).authenticator.Shares (ports q).primitives (ports q).authenticator

inductive FleetNode (K V P T A : Type) where
  | dated (n : MapNode K V P T A)
  | reader (n : ReadNode K V P T A)

/-- The nodes and the network between them, which keeps every datagram with the address it was sent
from. The other fields only record what happened: the payloads each node handed over, the payloads
completed, the entries written by local calls and those each node has held. -/
structure Fleet (K V P T A : Type) where
  nodes : P → FleetNode K V P T A
  wire : List (P × Bytes) := []
  sent : List (P × Bytes) := []
  completed : List Bytes := []
  written : List (K × Entry T V) := []
  held : List (P × K × Entry T V) := []

inductive FleetEvent (K V P T : Type) where
  | dated (p : P) (event : MapEvent K V P T)
  | reader (p : P) (event : ReadEvent P)

def MapEvent.arrival : MapEvent K V P T → Option (P × Bytes)
  | .datagram sender bytes _ => some (sender, bytes)
  | _ => none

def ReadEvent.arrival : ReadEvent P → Option (P × Bytes)
  | .datagram sender bytes _ => some (sender, bytes)
  | _ => none

def FleetEvent.node : FleetEvent K V P T → P
  | .dated p _ | .reader p _ => p

def FleetEvent.arrival : FleetEvent K V P T → Option (P × Bytes)
  | .dated _ event => event.arrival
  | .reader _ event => event.arrival

def FleetNode.entries [DecidableEq K] : FleetNode K V P T A → List (K × Entry T V)
  | .dated n => n.store.map.toList
  | .reader _ => []

namespace Fleet

variable {K V P T A : Type} [LinearOrder K] [LinearOrder P]

def act (s : Fleet K V P T A) (p : P) (node : FleetNode K V P T A) (out : NodeOutput K V T) :
    Fleet K V P T A where
  nodes := Function.update s.nodes p node
  wire := s.wire ++ out.datagrams.map (p, ·)
  sent := s.sent ++ out.payloads.map (p, ·)
  completed := s.completed ++ out.completed
  written := s.written ++ out.writes
  held := s.held ++ node.entries.map (p, ·)

def SentBy (s : Fleet K V P T A) (p : P) (w : Bytes) : Prop := (p, w) ∈ s.sent

def Written (s : Fleet K V P T A) (k : K) (e : Entry T V) : Prop := (k, e) ∈ s.written

def HeldBy (s : Fleet K V P T A) (p : P) (k : K) (e : Entry T V) : Prop := (p, k, e) ∈ s.held

/-- No payload completed in the run has the hash of another payload sent in it. -/
def NoCollision (D : Deployment P) (s : Fleet K V P T A) : Prop :=
  ∀ x ∈ s.sent, ∀ w ∈ s.completed, (D.ports x.1).hash x.2 = (D.ports x.1).hash w → x.2 = w

section Records

variable {D : Deployment P} {s : Fleet K V P T A} {p q : P} {node : FleetNode K V P T A}
variable {out : NodeOutput K V T}

theorem sentBy_act (w : Bytes) (h : s.SentBy q w) : (s.act p node out).SentBy q w :=
  List.mem_append_left _ h

theorem sentBy_act_self (h : w ∈ out.payloads) : (s.act p node out).SentBy p w :=
  List.mem_append_right _ (List.mem_map_of_mem h)

theorem sentBy_of_act_ne (hq : q ≠ p) (h : (s.act p node out).SentBy q w) : s.SentBy q w := by
  rcases List.mem_append.1 h with h | h
  · exact h
  · obtain ⟨_, _, he⟩ := List.mem_map.1 h
    cases he
    exact absurd rfl hq

theorem written_act (k : K) (e : Entry T V) (h : s.Written k e) : (s.act p node out).Written k e :=
  List.mem_append_left _ h

theorem heldBy_act (k : K) (e : Entry T V) (h : s.HeldBy q k e) :
    (s.act p node out).HeldBy q k e :=
  List.mem_append_left _ h

theorem heldBy_act_self {n : MapNode K V P T A} (k : K) (e : Entry T V)
    (h : n.store.map.lookup k = some e) : (s.act p (.dated n) out).HeldBy p k e :=
  List.mem_append_right _ (List.mem_map_of_mem ((HashMap.mem_toList _ _ _).2 h))

theorem NoCollision.of_act (h : (s.act p node out).NoCollision D) : s.NoCollision D :=
  fun x hx w hw => h x (List.mem_append_left _ hx) w (List.mem_append_left _ hw)

theorem NoCollision.of_completed (h : (s.act p node out).NoCollision D) (hw : w ∈ out.completed) :
    ∀ x ∈ s.sent, (D.ports x.1).hash x.2 = (D.ports x.1).hash w → x.2 = w :=
  fun x hx => h x (List.mem_append_left _ hx) w (List.mem_append_right _ hw)

theorem nodes_act_self : (s.act p node out).nodes p = node := Function.update_self ..

theorem nodes_act_of_ne (hq : q ≠ p) : (s.act p node out).nodes q = s.nodes q :=
  Function.update_of_ne hq ..

end Records

variable [LinearOrder T] (D : Deployment P) (proto : Protocol K V T A)

def start : Fleet K V P T A where
  nodes p :=
    if D.reads p then
      .reader
        { replay := D.replay p
          endpoint := ⟨.forIdentity, D.reassembler p, {}⟩ }
    else
      .dated
        { replay := D.replay p
          endpoint := ⟨.forIdentity, D.reassembler p, {}⟩
          coalescer := { window := D.window p } }

/-- The network may lose, repeat, reorder and redirect datagrams and put any source address on
them. What it makes up itself does not open. -/
def delivers (s : Fleet K V P T A) (p : P) : Option (P × Bytes) → Bool
  | none => true
  | some (_, bytes) => s.wire.any (fun sent => sent.2 = bytes) ||
      ((D.ports p).authenticator.open (D.ports p).primitives bytes).isNone

/-- The source address is the true one. -/
def genuine (s : Fleet K V P T A) (p : P) : Option (P × Bytes) → Bool
  | none => true
  | some (sender, bytes) => s.wire.contains (sender, bytes) ||
      ((D.ports p).authenticator.open (D.ports p).primitives bytes).isNone

def step (s : Fleet K V P T A) : FleetEvent K V P T → Option (Fleet K V P T A)
  | .dated p event =>
    match s.nodes p with
    | .reader _ => none
    | .dated n =>
      if s.delivers D p event.arrival then
        (n.step proto (D.ports p) event).map fun r => s.act p (.dated r.1) r.2
      else none
  | .reader p event =>
    match s.nodes p with
    | .dated _ => none
    | .reader n =>
      if s.delivers D p event.arrival then
        (n.step proto (D.ports p) event).map fun r => s.act p (.reader r.1) r.2
      else none

variable {D proto} {s s' : Fleet K V P T A} {e : FleetEvent K V P T}

inductive Steps (D : Deployment P) (proto : Protocol K V T A) (s : Fleet K V P T A) :
    FleetEvent K V P T → Fleet K V P T A → Prop where
  | dated (hnode : s.nodes p = .dated n) (hd : s.delivers D p event.arrival = true)
    (hs : n.step proto (D.ports p) event = some (n', out)) :
    Steps D proto s (.dated p event) (s.act p (.dated n') out)
  | reader (hnode : s.nodes p = .reader n) (hd : s.delivers D p event.arrival = true)
    (hs : n.step proto (D.ports p) event = some (n', out)) :
    Steps D proto s (.reader p event) (s.act p (.reader n') out)

theorem steps_of_step (h : s.step D proto e = some s') : Steps D proto s e s' := by
  cases e with
  | dated p event =>
    rw [step] at h
    split at h
    · cases h
    next n hnode =>
    split at h
    · next hd =>
      obtain ⟨⟨n', out⟩, hs, rfl⟩ := Option.map_eq_some_iff.1 h
      exact .dated hnode hd hs
    · cases h
  | reader p event =>
    rw [step] at h
    split at h
    · cases h
    next n hnode =>
    split at h
    · next hd =>
      obtain ⟨⟨n', out⟩, hs, rfl⟩ := Option.map_eq_some_iff.1 h
      exact .reader hnode hd hs
    · cases h

omit [LinearOrder K] [LinearOrder T] in
theorem wire_of_delivers {n : Endpoint P} (hd : s.delivers D p (some (sender, bytes)) = true)
    (hc : (D.ports p).Completes n bytes w) : ∃ q, (q, bytes) ∈ s.wire := by
  obtain ⟨opened, _, _, _, hopen, _⟩ := hc
  rw [delivers, hopen, Option.isNone_some, Bool.or_false, List.any_eq_true] at hd
  obtain ⟨⟨q, sent⟩, hin, he⟩ := hd
  cases of_decide_eq_true he
  exact ⟨q, hin⟩

omit [LinearOrder K] [LinearOrder T] in
theorem wire_of_genuine {n : Endpoint P} (hg : s.genuine D p (some (sender, bytes)) = true)
    (hc : (D.ports p).Completes n bytes w) : (sender, bytes) ∈ s.wire := by
  obtain ⟨opened, _, _, _, hopen, _⟩ := hc
  rw [genuine, hopen, Option.isNone_some, Bool.or_false] at hg
  exact List.contains_iff_mem.1 hg

/-- The readers have said, and are about to say, only fingerprints of states. -/
def Sinks (proto : Protocol K V T A) (s : Fleet K V P T A) : Prop :=
  ∀ p n, s.nodes p = .reader n →
    n.Sink proto ∧ ∀ w, s.SentBy p w → proto.codec.Speaks ReadNode.ValueOnly w

omit [LinearOrder K] [LinearOrder P] in
theorem sinks_start : (start D : Fleet K V P T A).Sinks proto := by
  intro p n hn
  simp only [start] at hn
  split at hn
  · cases hn
    exact ⟨nofun, nofun⟩
  · cases hn

theorem Sinks.act (h : s.Sinks proto)
    (ha : ∀ n, node = .reader n →
      n.Sink proto ∧ ∀ w, (s.act p node out).SentBy p w → proto.codec.Speaks ReadNode.ValueOnly w) :
    (s.act p node out).Sinks proto := by
  intro q n hn
  by_cases hq : q = p
  · subst hq
    rw [nodes_act_self] at hn
    exact ha n hn
  · rw [nodes_act_of_ne hq] at hn
    obtain ⟨hsink, hsaid⟩ := h q n hn
    exact ⟨hsink, fun w hw => hsaid w (sentBy_of_act_ne hq hw)⟩

theorem Sinks.step (h : s.Sinks proto) (hs : Steps D proto s e s') : s'.Sinks proto := by
  cases hs with
  | dated => exact h.act nofun
  | @reader p n event n' out hnode hd hs =>
    obtain ⟨hsink, hsaid⟩ := h p n hnode
    obtain ⟨hsink', hpayloads⟩ := hsink.step hs
    apply h.act
    rintro m ⟨⟩
    refine ⟨hsink', ?_⟩
    intro w hw
    rcases List.mem_append.1 hw with hw | hw
    · exact hsaid w hw
    · obtain ⟨_, hw, he⟩ := List.mem_map.1 hw
      cases he
      exact hpayloads w hw

theorem sinks_of_runs (h : Runs (Fleet.step D proto) (start D) es s) : s.Sinks proto := by
  apply h.invariant (fun _ s => s.Sinks proto) sinks_start
  intro es s e s' ih hs
  exact ih.step (steps_of_step hs)

/-- A node holds what was written, has kept what it sent, and says what is backed. -/
def NodeSound (D : Deployment P) (proto : Protocol K V T A) (s : Fleet K V P T A) (p : P) :
    FleetNode K V P T A → Prop
  | .dated n => n.Sound proto (D.ports p).hash (s.SentBy p) s.Written (s.HeldBy p) ∧
      ∀ k e, n.store.map.lookup k = some e → s.HeldBy p k e
  | .reader n => n.Sound (D.ports p).hash (s.SentBy p) s.Written

structure Sound (D : Deployment P) (proto : Protocol K V T A) (s : Fleet K V P T A) : Prop where
  nodes : ∀ p, s.NodeSound D proto p (s.nodes p)
  wire : ∀ x ∈ s.wire, (D.ports x.1).Sealed (s.SentBy x.1) x.2
  sent : ∀ x ∈ s.sent,
    proto.codec.Speaks (Backed proto.register s.Written (s.HeldBy x.1)) x.2

theorem sound_start : (start D : Fleet K V P T A).Sound D proto where
  nodes p := by
    have hempty : (RecoveryBook.forIdentity : RecoveryBook P).KeepsFrom (D.ports p).hash
        ((start D : Fleet K V P T A).SentBy p) := nofun
    simp only [start]
    split
    · exact ⟨hempty, nofun⟩
    · exact ⟨⟨hempty, nofun, nofun, ⟨fun _ => rfl, fun _ => ⟨nofun, nofun⟩⟩,
        ⟨nofun, nofun, nofun⟩, nofun⟩, nofun⟩
  wire := nofun
  sent := nofun

theorem NodeSound.act {p q : P} (h : s.NodeSound D proto q node)
    (node' : FleetNode K V P T A) (out : NodeOutput K V T) :
    (s.act p node' out).NodeSound D proto q node := by
  cases node with
  | dated n =>
    exact ⟨h.1.mono sentBy_act written_act heldBy_act, fun k e he => heldBy_act k e (h.2 k e he)⟩
  | reader n => exact ReadNode.Sound.mono h sentBy_act written_act

/-- A payload completed from the wire was sent by the node that put the datagram there. -/
theorem Sound.sentBy_of_completes {p q : P} {n : Endpoint P} (h : s.Sound D proto)
    (hq : (q, bytes) ∈ s.wire) (hcompletes : (D.ports p).Completes n bytes w)
    (hc : ∀ x ∈ s.sent, (D.ports x.1).hash x.2 = (D.ports x.1).hash w → x.2 = w) :
    s.SentBy q w := by
  obtain ⟨w', hw', hhash⟩ := hcompletes.origin (h.wire _ hq) (D.primitives_eq q p)
    (D.hash_eq q p) (D.shares q p)
  rw [← D.hash_eq q p] at hhash
  exact hc (q, w') hw' hhash ▸ hw'

structure Acts (D : Deployment P) (proto : Protocol K V T A) (s' : Fleet K V P T A) (p : P)
    (node : FleetNode K V P T A) (out : NodeOutput K V T) : Prop where
  node : s'.NodeSound D proto p node
  datagrams : ∀ d ∈ out.datagrams, (D.ports p).Sealed (s'.SentBy p) d
  payloads : ∀ w ∈ out.payloads,
    proto.codec.Speaks (Backed proto.register s'.Written (s'.HeldBy p)) w

theorem Sound.act (h : s.Sound D proto) (ha : Acts D proto (s.act p node out) p node out) :
    (s.act p node out).Sound D proto where
  nodes q := by
    by_cases hq : q = p
    · subst hq
      rw [nodes_act_self]
      exact ha.node
    · rw [nodes_act_of_ne hq]
      exact (h.nodes q).act node out
  wire x hx := by
    rcases List.mem_append.1 hx with hx | hx
    · exact (h.wire x hx).mono sentBy_act
    · obtain ⟨d, hd, rfl⟩ := List.mem_map.1 hx
      exact ha.datagrams d hd
  sent x hx := by
    rcases List.mem_append.1 hx with hx | hx
    · exact (h.sent x hx).mono fun _ hm => hm.mono written_act heldBy_act
    · obtain ⟨w, hw, rfl⟩ := List.mem_map.1 hx
      exact ha.payloads w hw

/-- What a node completes was sent, and so it is backed. -/
theorem Sound.completed_backed {p : P} {n : Endpoint P} (h : s.Sound D proto)
    (hc : (s.act p node out).NoCollision D) (hw : w ∈ out.completed)
    (hd : s.delivers D p (some (sender, bytes)) = true)
    (hcompletes : (D.ports p).Completes n bytes w) :
    proto.codec.Speaks (Backed proto.register (s.act p node out).Written fun _ _ => True) w := by
  obtain ⟨q, hq⟩ := wire_of_delivers hd hcompletes
  have hsent := h.sentBy_of_completes hq hcompletes (hc.of_completed hw)
  exact (h.sent _ hsent).mono fun _ hm => hm.mono written_act fun _ _ _ => trivial

theorem Sound.step (h : s.Sound D proto) (hsinks : s.Sinks proto) (hs : Steps D proto s e s')
    (hc : s'.NoCollision D) : s'.Sound D proto := by
  cases hs with
  | @dated p n event n' out hnode hd hs =>
    have hsound := h.nodes p
    rw [hnode] at hsound
    have hin : ∀ w ∈ out.completed, proto.codec.Speaks
        (Backed proto.register (s.act p (.dated n') out).Written fun _ _ => True) w := by
      intro w hw
      cases MapNode.step_store hs with
      | forgets _ hout =>
        rw [hout] at hw
        cases hw
      | completed _ hout hcompletes _ =>
        rw [hout, List.mem_singleton] at hw
        subst hw
        exact h.completed_backed hc (hout ▸ List.mem_cons_self) hd hcompletes
    obtain ⟨hnode', hdatagrams, hpayloads⟩ :=
      (hsound.1.mono sentBy_act written_act heldBy_act).step hs
        (fun kv hkv => List.mem_append_right _ hkv) (fun w hw => sentBy_act_self hw) hin
        (fun k e he => heldBy_act k e (hsound.2 k e he)) heldBy_act_self
    exact h.act ⟨⟨hnode', heldBy_act_self⟩, hdatagrams, hpayloads⟩
  | @reader p n event n' out hnode hd hs =>
    have hsound := h.nodes p
    rw [hnode] at hsound
    have hin : ∀ w ∈ out.completed, proto.codec.Speaks
        (Backed proto.register (s.act p (.reader n') out).Written fun _ _ => True) w := by
      intro w hw
      obtain ⟨sender, bytes, moment, rfl, hcompletes⟩ := ReadNode.step_completed hs hw
      exact h.completed_backed hc hw hd hcompletes
    obtain ⟨hnode', hdatagrams⟩ := (ReadNode.Sound.mono hsound sentBy_act written_act).step hs
      (fun w hw => sentBy_act_self hw) hin
    refine h.act ⟨hnode', hdatagrams, ?_⟩
    intro w hw
    refine (((hsinks p n hnode).1.step hs).2 w hw).mono ?_
    intro m hm
    cases m with
    | stateFingerprint segment => trivial
    | reserved6 bytes => trivial
    | _ => cases hm

theorem noCollision_of_step (h : s.step D proto e = some s') (hc : s'.NoCollision D) :
    s.NoCollision D := by
  cases steps_of_step h with
  | dated => exact hc.of_act
  | reader => exact hc.of_act

theorem sound_of_runs (h : Runs (Fleet.step D proto) (start D) es s) (hc : s.NoCollision D) :
    s.Sound D proto := by
  refine (h.invariant (fun _ s => s.Sinks proto ∧ (s.NoCollision D → s.Sound D proto))
    ⟨sinks_start, fun _ => sound_start⟩ ?_).2 hc
  intro es s e s' ih hs
  have hsteps := steps_of_step hs
  refine ⟨ih.1.step hsteps, ?_⟩
  intro hc
  exact (ih.2 (noCollision_of_step hs hc)).step ih.1 hsteps hc

end Fleet

end Reconcile
