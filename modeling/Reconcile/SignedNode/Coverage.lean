import Reconcile.Lib.Rotation
import Reconcile.SignedNode.Reports

namespace Reconcile
open Lib Lib.Action
set_option autoImplicit true

namespace SignedNode

variable {K V A : Type} [LinearOrder K] {E : SignedSuite K V} {s s' : SignedNode K V A}

def keySet (s : SignedNode K V A) : Finset K := s.entries.keys.toFinset

theorem mem_keySet : k ∈ s.keySet ↔ ∃ e, s.entries.lookup k = some e := by
  rw [keySet, List.mem_toFinset, ← AList.mem_keys, ← AList.lookup_isSome, Option.isSome_iff_exists]

theorem card_keySet (s : SignedNode K V A) : s.keySet.card = s.entries.len := by
  rw [keySet, List.toFinset_card_of_nodup s.entries.keys_nodup, HashMap.len, AList.keys,
    List.keys, List.length_map]

theorem next_of_nextEntry (h : s.nextEntry peer = some (k, e)) :
    s.entries.lookup k = some e ∧
      Rotation.Next s.keySet (s.outboundCursors.lookup peer).join k := by
  simp only [nextEntry] at h
  generalize (s.outboundCursors.lookup peer).join = cursor at h ⊢
  have hsorted : (s.entries.toList.mergeSort fun a b => a.1 ≤ b.1).Pairwise (·.1 < ·.1) :=
    Sorted.pairwise_lt_mergeSort (HashMap.keys_toList_nodup s.entries)
  have hmem (k : K) (e : Entry Timestamp V) :
      (k, e) ∈ s.entries.toList.mergeSort (fun a b => a.1 ≤ b.1) ↔ s.entries.lookup k = some e := by
    rw [List.mem_mergeSort, HashMap.mem_toList]
  have hkey {y : K} (hy : y ∈ s.keySet) :
      ∃ e, (y, e) ∈ s.entries.toList.mergeSort fun a b => a.1 ≤ b.1 := by
    obtain ⟨e, he⟩ := mem_keySet.1 hy
    exact ⟨e, (hmem y e).2 he⟩
  have hafter (ke : K × Entry Timestamp V) :
      (cursor.all fun last => last < ke.1) = true ↔ Rotation.After cursor ke.1 := by
    simp only [Option.all_eq_true, decide_eq_true_eq, Rotation.After, Option.mem_def]
  generalize s.entries.toList.mergeSort (fun a b => a.1 ≤ b.1) = ordered at h hsorted hmem hkey
  rw [Option.or_eq_some_iff] at h
  rcases h with h | ⟨hnone, h⟩
  · obtain ⟨hk, front, back, rfl, hfront⟩ := List.find?_eq_some_iff_append.1 h
    rw [hafter] at hk
    have hin : s.entries.lookup k = some e := (hmem k e).1 (by simp)
    refine ⟨hin, .past (mem_keySet.2 ⟨e, hin⟩) hk fun y hy hpast => ?_⟩
    obtain ⟨e', he'⟩ := hkey hy
    rcases List.mem_append.1 he' with hf | hb
    · have hn := hfront (y, e') hf
      rw [Bool.not_eq_true', Bool.eq_false_iff, ne_eq, hafter] at hn
      exact absurd hpast hn
    · rcases List.mem_cons.1 hb with heq | hb
      · cases heq
        exact le_rfl
      · exact ((List.pairwise_cons.1 (List.pairwise_append.1 hsorted).2.1).1 (y, e') hb).le
  · obtain ⟨back, rfl⟩ := List.head?_eq_some_iff.1 h
    have hin : s.entries.lookup k = some e := (hmem k e).1 List.mem_cons_self
    refine ⟨hin, .wrap (mem_keySet.2 ⟨e, hin⟩) (fun y hy => ?_) fun y hy => ?_⟩
    · obtain ⟨e', he'⟩ := hkey hy
      have hn := List.find?_eq_none.1 hnone (y, e') he'
      rwa [hafter] at hn
    · obtain ⟨e', he'⟩ := hkey hy
      rcases List.mem_cons.1 he' with heq | hb
      · cases heq
        exact le_rfl
      · exact ((List.pairwise_cons.1 hsorted).1 (y, e') hb).le

theorem exists_nextEntry (hk : s.entries.lookup k = some e) (peer : PeerId) :
    ∃ next, s.nextEntry peer = some next := by
  have hmem : (k, e) ∈ s.entries.toList.mergeSort fun a b => a.1 ≤ b.1 := by
    rw [List.mem_mergeSort, HashMap.mem_toList]
    exact hk
  obtain ⟨first, rest, hl⟩ := List.exists_cons_of_ne_nil (List.ne_nil_of_mem hmem)
  simp only [nextEntry, hl, List.head?_cons]
  cases List.find? _ _ with
  | none => exact ⟨first, rfl⟩
  | some next => exact ⟨next, rfl⟩

def rota (s : SignedNode K V A) (peer : PeerId) : Option K :=
  if s.routes.confirmed.contains peer then (s.outboundCursors.lookup peer).join else none

omit [LinearOrder K] in
theorem lookup_advance_of_not_mem {served : List (Service K V)}
    (cursors : HashMap PeerId (Option K)) (h : peer ∉ served.map Prod.fst) :
    (advance cursors served).lookup peer = cursors.lookup peer := by
  induction served generalizing cursors with
  | nil => rfl
  | cons x served ih =>
    rw [List.map_cons, List.mem_cons, not_or] at h
    exact (ih _ h.2).trans (AList.lookup_insert_ne h.1)

omit [LinearOrder K] in
theorem lookup_advance_of_mem {served : List (Service K V)} (cursors : HashMap PeerId (Option K))
    (hn : (served.map Prod.fst).Nodup) (h : (peer, k, e) ∈ served) :
    (advance cursors served).lookup peer = some (some k) := by
  induction served generalizing cursors with
  | nil => cases h
  | cons x served ih =>
    rw [List.map_cons, List.nodup_cons] at hn
    rcases List.mem_cons.1 h with rfl | h
    · exact (lookup_advance_of_not_mem _ hn.1).trans (AList.lookup_insert _)
    · exact ih _ hn.2 h

def Delivers (E : SignedSuite K V) (s : SignedNode K V A) (out : List (RoutedDatagram A))
    (x : Service K V) : Prop :=
  ∃ block, block <:+: out ∧ s.Carries E x block

/-- A node whose ticks serve every entry to every peer. -/
structure Serving (E : SignedSuite K V) (config : SignedConfig) (s : SignedNode K V A) : Prop where
  running : s.Running config
  writer : config.readOnly = false
  deliverable : ∀ k e, s.entries.lookup k = some e → s.Deliverable E k e
  peers : s.routes.confirmedPeers ≠ []
  entries : s.entries.entries ≠ []

omit [LinearOrder K] in
theorem mem_rotation : peer ∈ s.rotation ↔ peer ∈ s.routes.confirmedPeers := List.mem_rotate

omit [LinearOrder K] in
theorem Running.not_deliverable (h : s.Running config) (hin : peer ∈ s.routes.confirmedPeers)
    (hf : s.Fails E peer (E.serialize (.update k e)) err) : ¬s.Deliverable E k e := by
  rintro ⟨hfits, hframes⟩
  rcases hf with ⟨err', herr, _⟩ | ⟨_, _, hroute | ⟨frame, hframe, hlong⟩⟩
  · rw [ensureEntryFits, herr] at hfits
    cases hfits
  · rw [h.named.mem_confirmedPeers, HashMap.contains] at hin
    rw [SignedPeerRoutes.route, Option.map_eq_none_iff] at hroute
    rw [hroute] at hin
    cases hin
  · exact hframes frame hframe hlong

omit [LinearOrder K] in
theorem deliverable_congr (hsettings : s'.settings = s.settings)
    (hmtu : s'.boundary.mtu = s.boundary.mtu) :
    s'.Deliverable E k e ↔ s.Deliverable E k e := by
  have hfits := ensureEntryFits_congr (E := E) hsettings
  simp only [settings, Prod.mk.injEq] at hsettings
  have hover : s'.boundary.authenticator.overhead = s.boundary.authenticator.overhead := by
    rw [Boundary.overhead_eq, hmtu, hsettings.2.2, ← Boundary.overhead_eq]
  simp only [Deliverable, hfits, frames, Overlong, hsettings.2.2, hover]

omit [LinearOrder K] in
theorem requiredFragments_of_fits (h : s.ensureEntryFits E k e = .ok ()) :
    ∃ n, s.requiredFragments (E.serialize (.update k e)).length = .ok n := by
  rw [ensureEntryFits] at h
  cases hn : s.requiredFragments (E.serialize (.update k e)).length with
  | ok n => exact ⟨n, rfl⟩
  | error err =>
    rw [hn] at h
    cases h

omit [LinearOrder K] in
/-- No frame of a datagram below four gibibytes is too long for its envelope. -/
theorem deliverable_of_fits (hs : s.Configured) (hmtu : s.boundary.mtu < 2 ^ 32)
    (h : s.ensureEntryFits E k e = .ok ()) : s.Deliverable E k e := by
  obtain ⟨n, hn⟩ := requiredFragments_of_fits h
  refine ⟨h, fun frame hframe => ?_⟩
  exact (Boundary.inner_lt_of_mtu hmtu ((length_frames hs hn).2 frame hframe)).not_ge

theorem Running.not_tickFails (h : s.Running config)
    (hsend : ∀ k e, s.entries.lookup k = some e → s.Deliverable E k e) :
    ¬s.TickFails E now err s' := by
  intro hfails
  obtain ⟨served, hinterrupted⟩ := h.interrupted hfails
  obtain ⟨peer, next, hfront, hnext, hpeer⟩ := hinterrupted.failed
  have hin : peer ∈ s.routes.confirmedPeers :=
    mem_rotation.1 (hfront.subset (List.mem_append_right _ List.mem_cons_self))
  exact h.not_deliverable hin hpeer (hsend _ _ (next_of_nextEntry hnext).1)

theorem Serving.updated (h : s.Serving E config) (hdue : (s.polled now).2 = [])
    (ht : s.Ticked E now out s') :
    ∃ served, (s.turning now).Updated E s.rotation 0 served out s' := by
  have hnone {reports : List (RoutedDatagram A)}
      (hreports : List.Forall₂ (s.Reports E) (s.reported now) reports) : reports = [] := by
    rw [reported, hdue, List.filter_nil, List.take_nil] at hreports
    exact List.forall₂_nil_left_iff.1 hreports
  cases ht with
  | rests hreports hrests =>
    rw [hnone hreports] at hrests
    have hcap := h.running.configured.cap
    rcases hrests with hread | hframes | hpeers | hentries
    · rw [h.running.readOnly, h.writer] at hread
      cases hread
    · exact absurd hframes (Nat.not_le.2 hcap)
    · exact absurd (List.isEmpty_iff.1 hpeers) h.peers
    · exact absurd (List.isEmpty_iff.1 hentries) h.entries
  | serves hreports _ hupdated =>
    cases hnone hreports
    exact ⟨_, hupdated⟩

/-- What such a tick does to the cursors is one tick of the rotation. -/
theorem Serving.tick (h : s.Serving E config) {served : List (Service K V)}
    (hu : (s.turning now).Updated E s.rotation 0 served out s') :
    Rotation.Tick s.routes.confirmedPeers s.keySet s.nextPeerIndex s.rota
      (served.map fun x => (x.1, x.2.1)) s'.rota := by
  have hnodup : (served.map Prod.fst).Nodup :=
    (List.nodup_rotate.2 h.running.nodup).sublist hu.serves.front.sublist
  have hconfirmed {x : Service K V} (hx : x ∈ served) :
      s.routes.confirmed.contains x.1 = true := by
    rw [← h.running.named.mem_confirmedPeers, ← mem_rotation]
    exact hu.serves.front.subset (List.mem_map_of_mem hx)
  have hmem {p : PeerId} {k : K} (hpk : (p, k) ∈ served.map fun x => (x.1, x.2.1)) :
      ∃ e, (p, k, e) ∈ served := by
    obtain ⟨⟨p', k', e⟩, hx, heq⟩ := List.mem_map.1 hpk
    cases heq
    exact ⟨e, hx⟩
  have hrota (p : PeerId) : s'.rota p = if s.routes.confirmed.contains p then
      ((advance s.outboundCursors served).lookup p).join else none := by
    obtain ⟨_, _, _, rfl⟩ := hu.serves.advances
    rfl
  refine ⟨fun p hp => ?_, fun p k hpk => ?_, fun p k hpk => ?_, fun p hp => ?_⟩
  · have hhead : s.rotation.head? = some p := by
      rw [rotation, List.head?_rotate (List.getElem?_eq_some_iff.1 hp).1]
      exact hp
    cases served with
    | cons x served =>
      obtain ⟨back, hback⟩ := hu.serves.front
      rw [← hback] at hhead
      cases hhead
      exact ⟨x.2.1, List.mem_cons_self⟩
    | nil =>
      -- the first peer's entry always has room in a tick that has sent nothing
      obtain ⟨kv, hkv⟩ := List.exists_mem_of_ne_nil _ h.entries
      obtain ⟨next, hnext⟩ := exists_nextEntry (AList.mem_lookup_iff.2 hkv) p
      obtain ⟨n, hn, hroom⟩ := hu.first rfl p hhead next hnext
      have hcap := (requiredFragments_ok h.running.configured hn).2.1
      change s.maxFramesPerTick < 0 + n at hroom
      omega
  · obtain ⟨e, hx⟩ := hmem hpk
    have hnext := next_of_nextEntry (s := s) (hu.serves.next _ hx)
    rw [rota, if_pos (hconfirmed hx)]
    exact hnext.2
  · obtain ⟨e, hx⟩ := hmem hpk
    rw [hrota, if_pos (hconfirmed hx), lookup_advance_of_mem _ hnodup hx]
    rfl
  · rw [hrota, rota, lookup_advance_of_not_mem]
    intro hin
    obtain ⟨⟨p', k, e⟩, hx, rfl⟩ := List.mem_map.1 hin
    exact hp k (List.mem_map.2 ⟨_, hx, rfl⟩)

variable [DecidableEq A] {calls : List (NodeCall K V A)}

/-- Throughout the calls the entries and the confirmed peers stay the same, and no tick finds a
missing report due. -/
structure Steady (E : SignedSuite K V) (s : SignedNode K V A) (calls : List (NodeCall K V A)) :
    Prop where
  entries : ∀ before, before <+: calls → ∀ k,
    (before.foldl (step E) s).entries.lookup k = s.entries.lookup k
  peers : ∀ before, before <+: calls → ∀ peer,
    (before.foldl (step E) s).routes.confirmed.contains peer = s.routes.confirmed.contains peer
  due : ∀ before r, before ++ [.reconcile r] <+: calls →
    ((before.foldl (step E) s).polled r.now).2 = []

def Sent (E : SignedSuite K V) (s : SignedNode K V A) (calls : List (NodeCall K V A))
    (x : Service K V) : Prop :=
  ∃ before r rest out s', calls = before ++ .reconcile r :: rest ∧
    reconcile E r (before.foldl (step E) s) = .ok out s' ∧
    (before.foldl (step E) s).Delivers E out x

theorem Sent.cons {x : Service K V} (h : (s.step E call).Sent E calls x) :
    s.Sent E (call :: calls) x := by
  obtain ⟨before, r, rest, out, s', rfl, hok, hx⟩ := h
  exact ⟨call :: before, r, rest, out, s', rfl, hok, hx⟩

theorem Steady.tail (h : s.Steady E (call :: calls)) : (s.step E call).Steady E calls := by
  have hone : [call] <+: call :: calls := ⟨calls, rfl⟩
  refine ⟨fun before hb k => ?_, fun before hb peer => ?_, fun before r hb => ?_⟩
  · rw [← List.prefix_cons_inj call] at hb
    exact (h.entries _ hb k).trans (h.entries _ hone k).symm
  · rw [← List.prefix_cons_inj call] at hb
    exact (h.peers _ hb peer).trans (h.peers _ hone peer).symm
  · rw [← List.prefix_cons_inj call] at hb
    exact h.due (call :: before) r hb

theorem Serving.step (h : s.Serving E config) (hst : s.Steady E (call :: calls)) :
    (s.step E call).Serving E config ∧
      (s.step E call).routes.confirmedPeers = s.routes.confirmedPeers ∧
      (s.step E call).keySet = s.keySet := by
  have hone : [call] <+: call :: calls := ⟨calls, rfl⟩
  have hentries := hst.entries _ hone
  have hrunning : (s.step E call).Running config := h.running.step call
  have hpeers : (s.step E call).routes.confirmedPeers = s.routes.confirmedPeers :=
    h.running.named.confirmedPeers_eq hrunning.named (hst.peers _ hone)
  have hkeys : (s.step E call).keySet = s.keySet := by
    ext k
    rw [mem_keySet, mem_keySet]
    exact exists_congr fun e => by rw [← hentries k]; rfl
  obtain ⟨ev, _, hinner⟩ := s.inner_step (E := E) call
  refine ⟨⟨hrunning, h.writer, fun k e hk => ?_, ?_, ?_⟩, hpeers, hkeys⟩
  · rw [deliverable_congr (Prod.mk.inj hinner).2 (hrunning.mtu.trans h.running.mtu.symm)]
    exact h.deliverable k e ((hentries k).symm.trans hk)
  · rw [hpeers]
    exact h.peers
  · intro hnil
    obtain ⟨kv, hkv⟩ := List.exists_mem_of_ne_nil _ h.entries
    have hk := (hentries kv.1).trans (AList.mem_lookup_iff.2 hkv)
    have hin := AList.mem_lookup_iff.1 hk
    change kv ∈ (s.step E call).entries.entries at hin
    rw [hnil] at hin
    cases hin

theorem Serving.ticks (h : s.Serving E config) (hst : s.Steady E calls)
    (hwrap : s.nextPeerIndex + calls.countP NodeCall.isReconcile < 2 ^ 64) :
    ∃ log, log.length = calls.countP NodeCall.isReconcile ∧
      Rotation.Ticks s.routes.confirmedPeers s.keySet s.nextPeerIndex s.rota log ∧
      ∀ served ∈ log, ∀ peer k, (peer, k) ∈ served →
        ∃ e, s.entries.lookup k = some e ∧ s.Sent E calls (peer, k, e) := by
  induction calls generalizing s with
  | nil => exact ⟨[], rfl, .nil, by rintro _ ⟨⟩⟩
  | cons call calls ih =>
    obtain ⟨hserving, hpeers, hkeys⟩ := h.step hst
    have hentries := hst.entries [call] ⟨calls, rfl⟩
    have hlift {served : List (PeerId × K)} (hsent : ∀ peer k, (peer, k) ∈ served → ∃ e,
        (s.step E call).entries.lookup k = some e ∧ (s.step E call).Sent E calls (peer, k, e)) :
        ∀ peer k, (peer, k) ∈ served →
          ∃ e, s.entries.lookup k = some e ∧ s.Sent E (call :: calls) (peer, k, e) := by
      intro peer k hk
      obtain ⟨e, he, hx⟩ := hsent peer k hk
      exact ⟨e, (hentries k).symm.trans he, hx.cons⟩
    cases hc : call.isReconcile with
    | false =>
      have hidles := s.idles_step (E := E) hc
      have hrota : (s.step E call).rota = s.rota := by
        funext peer
        have hpeer : (s.step E call).routes.confirmed.contains peer =
          s.routes.confirmed.contains peer := hst.peers [call] ⟨calls, rfl⟩ peer
        rw [rota, rota, ← hpeer]
        split
        · next hin => exact congrArg Option.join (hidles.cursors peer hin)
        · rfl
      rw [List.countP_cons_of_neg (by rw [hc]; exact Bool.false_ne_true)] at hwrap ⊢
      obtain ⟨log, hlen, hticks, hsent⟩ := ih hserving hst.tail (by rw [hidles.index]; exact hwrap)
      rw [hpeers, hkeys, hidles.index, hrota] at hticks
      exact ⟨log, hlen, hticks, fun served hs => hlift (hsent served hs)⟩
    | true =>
      rw [List.countP_cons_of_pos hc] at hwrap ⊢
      cases call with
      | reconcile r =>
        have hdue : (s.polled r.now).2 = [] := hst.due [] r ⟨calls, rfl⟩
        obtain ⟨out, s', hok, hticked⟩ := (yields_reconcile (E := E) h.running.configured
          h.running.nodup r).returns fun _ _ => h.running.not_tickFails h.deliverable
        obtain ⟨served, hu⟩ := h.updated hdue hticked
        have hstep : s.step E (.reconcile r) = s' := after_eq_of_ok hok
        have hindex : s'.nextPeerIndex = s.nextPeerIndex + 1 := by
          obtain ⟨_, _, _, rfl⟩ := hu.serves.advances
          exact Nat.mod_eq_of_lt (by omega)
        rw [hstep] at hpeers hkeys hserving
        have htail := hst.tail
        rw [hstep] at htail hlift
        obtain ⟨log, hlen, hticks, hsent⟩ := ih hserving htail (by omega)
        rw [hpeers, hkeys, hindex] at hticks
        refine ⟨_ :: log, congrArg (· + 1) hlen, .cons (h.tick hu) hticks, ?_⟩
        rintro served' hs'
        rcases List.mem_cons.1 hs' with rfl | hs'
        · intro peer k hk
          obtain ⟨⟨peer, k, e⟩, hx, heq⟩ := List.mem_map.1 hk
          cases heq
          obtain ⟨blocks, rfl, hblocks⟩ := hu.carried
          obtain ⟨block, hblock, hcarries⟩ := exists_mem_of_forall₂ hblocks hx
          have hnext := next_of_nextEntry (s := s) (hu.serves.next _ hx)
          exact ⟨e, hnext.1, [], r, calls, _, s', rfl, hok, block,
            List.infix_of_mem_flatten hblock, hcarries⟩
        · exact hlift (hsent served' hs')
      | _ => cases hc

/-- In every state a node reaches, a tick returns at most the configured number of datagrams. A
node that may write, and whose entries all fit the framing limits and their envelopes, sends every
entry to every confirmed peer in as many ticks as there are pairs of them, whatever else it is
called for in between, as long as the entries and the confirmed peers stay the same, no report is
due at a tick and the rotation does not wrap around. -/
theorem reconcile_covers {s₀ : SignedNode K V A} {calls : List (NodeCall K V A)}
    (h₀ : new E config clusterKey signer clock readings loaded = .ok s₀)
    (hr : calls.foldl (step E) s₀ = s) :
    (∀ r out s', reconcile E r s = .ok out s' → out.length ≤ config.maxFramesPerTick) ∧
    (config.readOnly = false → (∀ k e, s.entries.lookup k = some e → s.Deliverable E k e) →
      ∀ ticks, s.Steady E ticks →
        s.entries.len * s.routes.confirmedPeers.length ≤ ticks.countP NodeCall.isReconcile →
        s.nextPeerIndex + ticks.countP NodeCall.isReconcile < 2 ^ 64 →
        ∀ peer ∈ s.routes.confirmedPeers, ∀ k e, s.entries.lookup k = some e →
          s.Sent E ticks (peer, k, e)) := by
  have hrunning : s.Running config := hr ▸ (running_new h₀).run calls
  refine ⟨fun r out s' hok => ?_, fun hwriter hsend ticks hst hcount hwrap peer hp k e hk => ?_⟩
  · rw [← hrunning.cap]
    exact ((yields_reconcile hrunning.configured hrunning.nodup r).ok hok).length_le
      hrunning.configured
  · have hserving : s.Serving E config := by
      refine ⟨hrunning, hwriter, hsend, List.ne_nil_of_mem hp, ?_⟩
      exact List.ne_nil_of_mem (AList.mem_lookup_iff.1 hk)
    obtain ⟨log, hlen, hticks, hsent⟩ := hserving.ticks hst hwrap
    rw [← card_keySet, ← hlen] at hcount
    obtain ⟨served, hs, hin⟩ := hticks.cover hcount hp (mem_keySet.2 ⟨e, hk⟩)
    obtain ⟨e', he', hx⟩ := hsent served hs peer k hin
    cases hk.symm.trans he'
    exact hx

theorem Running.ticks_keep (h : s.Running config)
    (hall : ∀ call ∈ calls, call.isReconcile = true) :
    (calls.foldl (SignedNode.step E) s).entries = s.entries ∧
      (calls.foldl (SignedNode.step E) s).routes = s.routes := by
  induction calls generalizing s with
  | nil => exact ⟨rfl, rfl⟩
  | cons call calls ih =>
    obtain ⟨hentries, hroutes⟩ := ih (h.step (E := E) call) fun c hc =>
      hall c (List.mem_cons_of_mem _ hc)
    have hcall := hall call List.mem_cons_self
    cases call with
    | reconcile r =>
      have hcausal := (Prod.mk.inj (keeps_reconcile (E := E) r s)).1
      refine ⟨hentries.trans ?_, hroutes.trans (h.after_reconcile (E := E) r).1⟩
      change (after (reconcile E r) s).toSignedCausal.entries = s.entries
      rw [hcausal]
    | _ => cases hcall

theorem Running.steady (h : s.Running config) (hall : ∀ call ∈ calls, call.isReconcile = true)
    (hdue : ∀ before r, before ++ [.reconcile r] <+: calls →
      ((before.foldl (SignedNode.step E) s).polled r.now).2 = []) : s.Steady E calls := by
  have hkeep {before : List (NodeCall K V A)} (hb : before <+: calls) :=
    h.ticks_keep (E := E) fun call hc => hall call (hb.subset hc)
  refine ⟨fun before hb k => ?_, fun before hb peer => ?_, hdue⟩
  · rw [(hkeep hb).1]
  · rw [(hkeep hb).2]

theorem sent_singleton {x : Service K V} : s.Sent E [.reconcile r] x ↔
    ∃ out s', reconcile E r s = .ok out s' ∧ s.Delivers E out x := by
  constructor
  · rintro ⟨before, r', rest, out, t, hcalls, hok, hx⟩
    have hnil : before = [] := by
      have hlen := congrArg List.length hcalls
      rw [List.length_append, List.length_singleton, List.length_cons] at hlen
      exact List.length_eq_zero_iff.1 (by omega)
    subst hnil
    cases hcalls
    exact ⟨out, t, hok, hx⟩
  · rintro ⟨out, s', hok, hx⟩
    exact ⟨[], r, [], out, s', rfl, hok, hx⟩

theorem Running.not_sent {x : Service K V} (h : s.Running config)
    (hok : reconcile E r s = .ok [] s')
    (hx : s.requiredFragments (x.bytes E).length = .ok (n + 1)) : ¬s.Sent E [.reconcile r] x := by
  rw [sent_singleton]
  rintro ⟨out, t, hok', block, hblock, hcarries⟩
  cases hok.symm.trans hok'
  have hframes := hcarries.length_eq
  rw [List.eq_nil_of_infix_nil hblock] at hframes
  exact absurd ((length_frames h.configured hx).1.symm.trans hframes) (Nat.succ_ne_zero n)

omit [DecidableEq A] in
theorem Serves.eq_nil {served : List (Service K V)} {next : K × Entry Timestamp V}
    (h : s.Serves E peers served s') (hhead : peers.head? = some peer)
    (hnext : s.nextEntry peer = some next) (hstuck : ¬s.Deliverable E next.1 next.2) :
    served = [] := by
  cases served with
  | nil => rfl
  | cons x served =>
    obtain ⟨rest, hrest⟩ := h.front
    rw [List.map_cons, List.cons_append] at hrest
    rw [← hrest] at hhead
    cases hhead
    cases hnext.symm.trans (h.next x List.mem_cons_self)
    exact absurd (h.deliverable x List.mem_cons_self) hstuck

omit [DecidableEq A] in
/-- A tick that comes to its updates fails when the first peer's entry cannot be sent. -/
theorem Running.reconcile_blocked (h : s.Running config) (r : Readings)
    (hrests : ¬s.Rests (s.reported r.now).length) (hhead : s.rotation.head? = some peer)
    (hnext : s.nextEntry peer = some next) (hstuck : ¬s.Deliverable E next.1 next.2)
    (hroom : ∀ n, s.requiredFragments (Service.bytes E (peer, next)).length = .ok n →
      (s.reported r.now).length + n ≤ s.maxFramesPerTick) :
    ∃ e s', reconcile E r s = .error e s' ∧ s.TickFails E r.now e s' ∧
      s.Fails E peer (Service.bytes E (peer, next)) e := by
  have hyields := yields_reconcile (E := E) h.configured h.nodup r
  cases hrun : reconcile E r s with
  | ok out s' =>
    exfalso
    cases hyields.ok hrun with
    | rests hreports hr =>
      rw [← hreports.length_eq] at hr
      exact hrests hr
    | serves hreports _ hupdated =>
      have hnil := hupdated.serves.eq_nil hhead hnext hstuck
      obtain ⟨n, hn, hfull⟩ := hupdated.first hnil peer hhead next hnext
      rw [← hreports.length_eq] at hfull
      exact absurd (hroom n hn) (Nat.not_le.2 hfull)
  | error e s' =>
    have hfails := hyields.error hrun
    obtain ⟨served, hinterrupted⟩ := h.interrupted hfails
    have hnil := hinterrupted.serves.eq_nil hhead hnext hstuck
    obtain ⟨q, next', hfront, hq, hf⟩ := hinterrupted.failed
    rw [hnil, List.map_nil, List.nil_append] at hfront
    have hfirst : q = peer := by
      obtain ⟨rest, hrest⟩ := hfront
      rw [← hrest] at hhead
      exact Option.some.inj hhead
    subst hfirst
    cases hnext.symm.trans hq
    exact ⟨e, s', rfl, hfails, hf⟩

omit [DecidableEq A] in
theorem Running.not_rests (h : s.Running config) (hwriter : config.readOnly = false)
    (hin : peer ∈ s.routes.confirmedPeers) (he : s.entries.lookup k = some e)
    (hframes : n < s.maxFramesPerTick) : ¬s.Rests n := by
  rintro (hreadOnly | hcap | hnone | hempty)
  · rw [h.readOnly, hwriter] at hreadOnly
    cases hreadOnly
  · exact absurd hcap (Nat.not_le.2 hframes)
  · exact List.ne_nil_of_mem hin (List.isEmpty_iff.1 hnone)
  · exact List.ne_nil_of_mem (AList.mem_lookup_iff.1 he) (List.isEmpty_iff.1 hempty)

open Boundary Ingress SignedCausal

def tick : Readings := readingsAt 30 nines

def stocking : List (NodeCall Nat Nat Nat) := confirming ++ [.write (.insert 1 10) 1000]

def stocked : SignedNode Nat Nat Nat := stocking.foldl (step plainSuite) pair

theorem polled_of_held {s : SignedNode Nat Nat Nat}
    (h : (s.reassembler.expire now).1.held.isEmpty = true) : (s.polled now).2 = [] := by
  unfold polled
  split
  · have hnone : (s.reassembler.expire now).1.idleCandidates now 2000 3000 = [] := by
      rw [← List.length_eq_zero_iff, Reassembler.length_idleCandidates, List.isEmpty_iff.1 h]
      rfl
    rw [Reassembler.pollIdleMissing, hnone]
    split
    · rfl
    · rfl
  · rfl

theorem fits_plain {s : SignedNode Nat Nat Nat} (h : s.requiredFragments 1 = .ok 1) (k : Nat)
    (e : Entry Timestamp Nat) : s.ensureEntryFits plainSuite k e = .ok () := by
  change (s.requiredFragments 1).map _ = _
  rw [h]
  rfl

theorem steady_tick {E : SignedSuite Nat Nat} {s : SignedNode Nat Nat Nat} (h : s.Running config)
    (hheld : (s.reassembler.expire tick.now).1.held.isEmpty = true) :
    s.Steady E [.reconcile tick] := by
  refine h.steady (by simp [NodeCall.isReconcile]) fun before r hb => ?_
  have hlen := hb.length_le
  rw [List.length_append, List.length_singleton, List.length_singleton] at hlen
  have hnil : before = [] := List.length_eq_zero_iff.1 (by omega)
  subst hnil
  cases hb.eq_of_length rfl
  exact polled_of_held hheld

theorem reconcile_covers_stocked : ∃ e, stocked.entries.lookup 1 = some e ∧
    stocked.entries.len * stocked.routes.confirmedPeers.length = 1 ∧
    stocked.Sent plainSuite [.reconcile tick] (zeros 32, 1, e) := by
  have hrunning : stocked.Running pairConfig := (running_new new_pair).run stocking
  have hpairs : stocked.entries.len * stocked.routes.confirmedPeers.length = 1 := by
    rw [SignedPeerRoutes.length_confirmedPeers]
    decide +kernel
  have hpeer : zeros 32 ∈ stocked.routes.confirmedPeers := by
    rw [hrunning.named.mem_confirmedPeers]
    decide +kernel
  have hsize : stocked.requiredFragments 1 = .ok 1 := by decide +kernel
  obtain ⟨e, he⟩ := Option.isSome_iff_exists.1
    (show (stocked.entries.lookup 1).isSome = true by decide +kernel)
  have hindex : stocked.nextPeerIndex = 0 := by decide +kernel
  have hrun : stocking.foldl (step plainSuite) pair = stocked := rfl
  have hmtu : stocked.boundary.mtu < 2 ^ 32 := by
    rw [hrunning.mtu]
    decide
  refine ⟨e, he, hpairs, (reconcile_covers new_pair hrun).2 rfl
    (fun k e _ => deliverable_of_fits hrunning.configured hmtu (fits_plain hsize k e))
    [.reconcile tick] (steady_tick hrunning (by decide +kernel)) ?_ ?_ (zeros 32) hpeer 1 e he⟩
  · rw [hpairs]
    exact le_rfl
  · rw [hindex]
    decide +kernel

/-- A read-only node of the same roster, with the entry of its snapshot. -/
def readerConfig : SignedConfig := { pairConfig with readOnly := true }

def savedEntry : PersistedState Nat Nat PeerId Timestamp :=
  ⟨[(1, .present ⟨⟨900, 0⟩, 7⟩ 10)], ∅, ∅⟩

def reader : SignedNode Nat Nat Nat :=
  assemble readerConfig
    { mirror with
      signer := nines
      allowlist := readerConfig.authorities
      replayPolicy := ⟨300000000000, 512⟩
      maxPeers := 256 }
    { entries := AList.insert 1 (.present ⟨⟨900, 0⟩, 7⟩ 10) ∅
      authorities := readerConfig.authorities
      readOnly := true
      clock := ({ nodeId := 1 } : HlcClock).observeTrusted .standard ⟨⟨900, 0⟩, 7⟩ 0 }

theorem new_reader : new plainSuite readerConfig (zeros 32) nines { nodeId := 1 } (fun _ => 0)
    (.ok (some savedEntry)) = .ok reader := rfl

theorem reader_silent {s : SignedNode Nat Nat Nat}
    (hs : confirming.foldl (step plainSuite) reader = s) :
    s.entries.len * s.routes.confirmedPeers.length = 1 ∧
    (∀ k e, s.ensureEntryFits plainSuite k e = .ok ()) ∧ s.Steady plainSuite [.reconcile tick] ∧
    zeros 32 ∈ s.routes.confirmedPeers ∧ s.entries.lookup 1 = some (.present ⟨⟨900, 0⟩, 7⟩ 10) ∧
    ¬s.Sent plainSuite [.reconcile tick] (zeros 32, 1, .present ⟨⟨900, 0⟩, 7⟩ 10) := by
  have hrunning : s.Running readerConfig := hs ▸ (running_new new_reader).run confirming
  have hpeer : s.routes.confirmed.contains (zeros 32) = true := hs ▸ by decide +kernel
  have hpairs : s.entries.len * s.routes.confirmed.len = 1 := hs ▸ by decide +kernel
  have hsize : s.requiredFragments 1 = .ok 1 := hs ▸ by decide +kernel
  have hheld : (s.reassembler.expire tick.now).1.held.isEmpty = true := hs ▸ by decide +kernel
  refine ⟨?_, fits_plain hsize, steady_tick hrunning hheld,
    (hrunning.named.mem_confirmedPeers _).2 hpeer, hs ▸ by decide +kernel, ?_⟩
  · rwa [SignedPeerRoutes.length_confirmedPeers]
  · have hdue := polled_of_held hheld
    have hreadOnly : s.readOnly = true := hrunning.readOnly
    obtain ⟨s', hquiet, _⟩ := hrunning.reconcile_nil (E := plainSuite) tick
      (by rw [hdue, List.filter_nil]) (.inl hreadOnly)
    exact hrunning.not_sent hquiet hsize

def savedPair : PersistedState Nat Nat PeerId Timestamp :=
  ⟨[(1, .present ⟨⟨900, 0⟩, 7⟩ 10)], pairConfig.authorities, ∅⟩

def reloaded (config : SignedConfig) (boundary : Boundary) : SignedNode Nat Nat Nat :=
  assemble config
    { boundary with
      signer := nines
      allowlist := pairConfig.authorities
      replayPolicy := ⟨300000000000, 512⟩
      maxPeers := 256 }
    { entries := AList.insert 1 (.present ⟨⟨900, 0⟩, 7⟩ 10) ∅
      members := pairConfig.authorities
      authorities := pairConfig.authorities
      clock := ({ nodeId := 1 } : HlcClock).observeTrusted .standard ⟨⟨900, 0⟩, 7⟩ 0 }

def vastUpdate : Bytes := List.replicate (2 ^ 32 - 1) 5

def vastSuite : SignedSuite Nat Nat :=
  { plainSuite with
    serialize := fun m => match m with
      | .update _ _ => vastUpdate
      | _ => [0] }

/-- Datagrams of eight gibibytes, and messages as long as they may be. -/
def vastConfig : SignedConfig :=
  { pairConfig with
    framing := { datagramPayloadBudget := 2 ^ 33, maxLogicalMessageSize := 2 ^ 32 - 1 } }

theorem vast_gt : identityEnvelopeOverhead + mirror.authenticator.overhead < 2 ^ 33 := by decide

def vastMirror : Boundary := { mirror with mtu := 2 ^ 33, mtu_gt := vast_gt }

theorem new_vast : new vastSuite vastConfig (zeros 32) nines { nodeId := 1 } (fun _ => 0)
    (.ok (some savedPair)) = .ok (reloaded vastConfig vastMirror) := rfl

theorem vast_silent {s : SignedNode Nat Nat Nat}
    (hs : confirming.foldl (step vastSuite) (reloaded vastConfig vastMirror) = s) :
    s.readOnly = false ∧ s.entries.len * s.routes.confirmedPeers.length = 1 ∧
    (∀ k e, s.ensureEntryFits vastSuite k e = .ok ()) ∧ s.Steady vastSuite [.reconcile tick] ∧
    zeros 32 ∈ s.routes.confirmedPeers ∧ s.entries.lookup 1 = some (.present ⟨⟨900, 0⟩, 7⟩ 10) ∧
    ¬s.Sent vastSuite [.reconcile tick] (zeros 32, 1, .present ⟨⟨900, 0⟩, 7⟩ 10) := by
  have hrunning : s.Running vastConfig := hs ▸ (running_new new_vast).run confirming
  have hpeer : s.routes.confirmed.contains (zeros 32) = true := hs ▸ by decide +kernel
  have hpairs : s.entries.len * s.routes.confirmed.len = 1 := hs ▸ by decide +kernel
  have hone : s.requiredFragments (2 ^ 32 - 1) = .ok 1 := hs ▸ by decide +kernel
  have hheld : (s.reassembler.expire tick.now).1.held.isEmpty = true := hs ▸ by decide +kernel
  have hentry : s.entries.lookup 1 = some (.present ⟨⟨900, 0⟩, 7⟩ 10) := hs ▸ by decide +kernel
  have hlen : vastUpdate.length = 2 ^ 32 - 1 := List.length_replicate
  have hsize (k : Nat) (e : Entry Timestamp Nat) :
      s.requiredFragments (vastSuite.serialize (.update k e)).length = .ok 1 := by
    change s.requiredFragments vastUpdate.length = .ok 1
    rw [hlen, hone]
  have hin := (hrunning.named.mem_confirmedPeers _).2 hpeer
  refine ⟨hrunning.readOnly, ?_, ?_, steady_tick hrunning hheld, hin, hentry, ?_⟩
  · rwa [SignedPeerRoutes.length_confirmedPeers]
  · intro k e
    rw [ensureEntryFits, hsize]
    rfl
  · have hreported : s.reported tick.now = [] := by
      rw [reported, polled_of_held hheld, List.filter_nil, List.take_nil]
    have hcap := hrunning.configured.cap
    obtain ⟨first, hhead⟩ := Option.isSome_iff_exists.1
      (List.isSome_head?.2 (List.ne_nil_of_mem (mem_rotation.2 hin)))
    obtain ⟨next, hnext⟩ := exists_nextEntry hentry first
    have hstuck : ¬s.Deliverable vastSuite next.1 next.2 := by
      rintro ⟨_, hframes⟩
      have hbudget : 2 ^ 32 ≤ s.boundary.payloadBudget := hs ▸ by decide +kernel
      have hwhole : s.frames vastSuite vastUpdate = [writeComplete vastUpdate] :=
        if_pos (by rw [hlen]; exact hbudget)
      apply hframes (writeComplete vastUpdate) (hwhole ▸ List.mem_cons_self)
      rw [Overlong, writeComplete, List.length_cons, hlen]
      omega
    obtain ⟨e, s', herr, _⟩ := hrunning.reconcile_blocked (E := vastSuite) tick
      (by rw [hreported]; exact hrunning.not_rests rfl hin hentry hcap) hhead hnext hstuck
      (by
        intro n hn
        cases (hsize next.1 next.2).symm.trans hn
        rw [hreported, List.length_nil, Nat.zero_add]
        exact hcap)
    rw [sent_singleton]
    rintro ⟨out, t, hok, _⟩
    cases herr.symm.trans hok

/-- Two nodes that load an entry that fits and send none of it in a tick with one confirmed peer: one
that is read-only, and one whose envelopes cannot hold it. -/
theorem reconcile_covers_silent :
    (∃ s, new plainSuite readerConfig (zeros 32) nines { nodeId := 1 } (fun _ => 0)
        (.ok (some savedEntry)) = .ok reader ∧ confirming.foldl (step plainSuite) reader = s ∧
      s.entries.len * s.routes.confirmedPeers.length = 1 ∧
      (∀ k e, s.ensureEntryFits plainSuite k e = .ok ()) ∧ s.Steady plainSuite [.reconcile tick] ∧
      zeros 32 ∈ s.routes.confirmedPeers ∧
      s.entries.lookup 1 = some (.present ⟨⟨900, 0⟩, 7⟩ 10) ∧
      ¬s.Sent plainSuite [.reconcile tick] (zeros 32, 1, .present ⟨⟨900, 0⟩, 7⟩ 10)) ∧
    ∃ s, new vastSuite vastConfig (zeros 32) nines { nodeId := 1 } (fun _ => 0)
        (.ok (some savedPair)) = .ok (reloaded vastConfig vastMirror) ∧
      confirming.foldl (step vastSuite) (reloaded vastConfig vastMirror) = s ∧
      s.readOnly = false ∧ s.entries.len * s.routes.confirmedPeers.length = 1 ∧
      (∀ k e, s.ensureEntryFits vastSuite k e = .ok ()) ∧ s.Steady vastSuite [.reconcile tick] ∧
      zeros 32 ∈ s.routes.confirmedPeers ∧
      s.entries.lookup 1 = some (.present ⟨⟨900, 0⟩, 7⟩ 10) ∧
      ¬s.Sent vastSuite [.reconcile tick] (zeros 32, 1, .present ⟨⟨900, 0⟩, 7⟩ 10) :=
  ⟨⟨_, new_reader, rfl, reader_silent rfl⟩, _, new_vast, rfl, vast_silent rfl⟩

end SignedNode

end Reconcile
