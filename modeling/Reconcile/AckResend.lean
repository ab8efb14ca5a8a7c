import Mathlib.Data.List.Sort
import Reconcile.FramedSend.Messages
import Reconcile.Lib.Cyclic
import Reconcile.Lib.Sorted
import Reconcile.Lib.Transition
import Reconcile.Replica

namespace Reconcile
open Lib Lib.Cyclic
set_option autoImplicit true

def tombstoneAckResendByteBudget : Nat := 8 * 1024

/-- What one round reads: the index of the tombstones, the map loaded after it, and the buffer the
acknowledgements are appended to. -/
structure ResendInput (K V T : Type) where
  live : HashSet K
  map : HashMap K (Entry T V)
  buf : Bytes

structure ResendRound (K M : Type) where
  start : Option K
  visited : List K
  acks : List M
  buf : Bytes

def binarySearch [LinearOrder K] (keys : List K) (key : K) : Except Nat Nat :=
  let index := keys.findIdx fun k => key ≤ k
  if keys[index]? = some key then .ok index else .error index

def resendStart [LinearOrder K] (keys : List K) (cursor : Option K) : Nat :=
  match cursor with
  | none => 0
  | some next =>
    match binarySearch keys next with
    | .ok index => index
    | .error index => index % keys.length

section Round

variable {K V T A : Type} [LinearOrder K] [LinearOrder T]
variable (encode : Message K (Entry T V) (State V) A → Bytes) (R : Rsos T V)

def ackOf (key : K) (v : Entry T V) : Message K (Entry T V) (State V) A :=
  .tombstoneAck key ⟨R.versionHash v, Nat.mod_lt _ (by decide)⟩

def heldAck (map : HashMap K (Entry T V)) (key : K) : Option (Message K (Entry T V) (State V) A) :=
  ((map.lookup key).filter Entry.isTombstone).map (ackOf R key)

/-- The loop over the rotated keys; the second result is the next cursor. -/
def resendLoop (map : HashMap K (Entry T V)) (budget : Nat) :
    List K → Bytes → ResendRound K (Message K (Entry T V) (State V) A) × Option K
  | [], buf => (⟨none, [], [], buf⟩, none)
  | key :: keys, buf =>
    if budget ≤ buf.length then (⟨none, [], [], buf⟩, some key)
    else
      match heldAck R map key with
      | some ack =>
        let (round, cursor) := resendLoop map budget keys (buf ++ encode ack)
        (⟨some key, key :: round.visited, ack :: round.acks, round.buf⟩, cursor)
      | none =>
        let (round, cursor) := resendLoop map budget keys buf
        (⟨some key, key :: round.visited, round.acks, round.buf⟩, cursor)

def sortedKeys (live : HashSet K) : List K := live.keys.insertionSort (· ≤ ·)

def resendHeldTombstoneAcks (cursor : Option K) (input : ResendInput K V T) :
    ResendRound K (Message K (Entry T V) (State V) A) × Option K :=
  let keys := sortedKeys input.live
  if keys.isEmpty then (⟨none, [], [], input.buf⟩, none)
  else
    resendLoop encode R input.map (input.buf.length + tombstoneAckResendByteBudget)
      (around keys (resendStart keys cursor)) input.buf

end Round

variable {K V T A : Type} [LinearOrder K] [LinearOrder T]
variable {encode : Message K (Entry T V) (State V) A → Bytes} {R : Rsos T V}

/-- What the loop does with the keys it is given: it visits the first of them, acknowledges those
that are tombstones and leaves the first of the rest as the cursor. -/
structure Visits (encode : Message K (Entry T V) (State V) A → Bytes) (R : Rsos T V)
    (map : HashMap K (Entry T V)) (keys : List K) (buf : Bytes)
    (round : ResendRound K (Message K (Entry T V) (State V) A)) (cursor : Option K) : Prop where
  walk : ∃ rest, keys = round.visited ++ rest ∧ cursor = rest.head?
  start : round.start = round.visited.head?
  acks : round.acks = round.visited.filterMap (heldAck R map)
  buf : round.buf = buf ++ round.acks.flatMap encode

theorem resendLoop_visits (encode : Message K (Entry T V) (State V) A → Bytes) (R : Rsos T V)
    (map : HashMap K (Entry T V)) (budget : Nat)
    (keys : List K) (buf : Bytes) :
    Visits encode R map keys buf (resendLoop encode R map budget keys buf).1
      (resendLoop encode R map budget keys buf).2 := by
  induction keys generalizing buf with
  | nil => exact ⟨⟨[], rfl, rfl⟩, rfl, rfl, (List.append_nil _).symm⟩
  | cons key keys ih =>
    rw [resendLoop]
    split
    · exact ⟨⟨key :: keys, rfl, rfl⟩, rfl, rfl, (List.append_nil _).symm⟩
    split
    · next ack hack =>
      obtain ⟨⟨rest, hwalk, hcursor⟩, -, hacks, hbuf⟩ := ih (buf ++ encode ack)
      refine ⟨⟨rest, congrArg (key :: ·) hwalk, hcursor⟩, rfl, ?_, ?_⟩
      · rw [List.filterMap_cons_some hack]
        exact congrArg (ack :: ·) hacks
      · rw [List.flatMap_cons, ← List.append_assoc]
        exact hbuf
    · next hack =>
      obtain ⟨⟨rest, hwalk, hcursor⟩, -, hacks, hbuf⟩ := ih buf
      refine ⟨⟨rest, congrArg (key :: ·) hwalk, hcursor⟩, rfl, ?_, hbuf⟩
      rw [List.filterMap_cons_none hack]
      exact hacks

theorem resendLoop_visited (encode : Message K (Entry T V) (State V) A → Bytes)
    (R : Rsos T V) (map : HashMap K (Entry T V)) {budget : Nat} {keys : List K} {buf : Bytes}
    (hroom : buf.length < budget) (hkeys : keys ≠ []) :
    (resendLoop encode R map budget keys buf).1.visited ≠ [] := by
  cases keys with
  | nil => exact absurd rfl hkeys
  | cons key keys =>
    rw [resendLoop, if_neg (Nat.not_le.2 hroom)]
    split <;> exact List.cons_ne_nil _ _

theorem resendLoop_acks (encode : Message K (Entry T V) (State V) A → Bytes)
    (map : HashMap K (Entry T V)) {budget : Nat} {keys : List K} {buf : Bytes}
    (hroom : buf.length < budget) (hkey : key ∈ keys)
    (hack : (heldAck (A := A) R map key).isSome = true) :
    (resendLoop encode R map budget keys buf).1.acks ≠ [] := by
  induction keys with
  | nil => cases hkey
  | cons key' keys ih =>
    rw [resendLoop, if_neg (Nat.not_le.2 hroom)]
    split
    · exact List.cons_ne_nil _ _
    · next hnone =>
      rcases List.mem_cons.1 hkey with rfl | hkey
      · rw [hnone] at hack
        cases hack
      · exact ih hkey

theorem mem_sortedKeys {live : HashSet K} : k ∈ sortedKeys live ↔ k ∈ live := by
  rw [sortedKeys, List.mem_insertionSort]
  exact AList.mem_keys.symm

theorem length_sortedKeys (live : HashSet K) : (sortedKeys live).length = live.len := by
  rw [sortedKeys, List.length_insertionSort]
  exact List.length_map _

theorem pairwise_sortedKeys (live : HashSet K) : (sortedKeys live).Pairwise (· < ·) := by
  have hle : (sortedKeys live).Pairwise (· ≤ ·) := List.pairwise_insertionSort ..
  have hne : (sortedKeys live).Nodup := (List.perm_insertionSort ..).nodup_iff.2 live.keys_nodup
  exact (hle.and hne).imp fun h => lt_of_le_of_ne h.1 h.2

theorem sortedKeys_eq {live live' : HashSet K} (h : ∀ k, k ∈ live ↔ k ∈ live') :
    sortedKeys live = sortedKeys live' :=
  Sorted.eq_of_mem_iff (f := fun k : K => k) (pairwise_sortedKeys live)
    (pairwise_sortedKeys live') fun k => mem_sortedKeys.trans ((h k).trans mem_sortedKeys.symm)

theorem resendStart_some (keys : List K) (cursor : K) :
    resendStart keys (some cursor) = (keys.findIdx fun k => cursor ≤ k) % keys.length := by
  by_cases hfound : keys[keys.findIdx fun k => cursor ≤ k]? = some cursor
  · have hlt := (List.getElem?_eq_some_iff.1 hfound).1
    simp only [resendStart, binarySearch, if_pos hfound, Nat.mod_eq_of_lt hlt]
  · simp only [resendStart, binarySearch, if_neg hfound]

theorem resendStart_resumes {keys : List K} (hkeys : keys.Pairwise (· < ·)) (hne : keys ≠ [])
    (cursor : K) :
    ∃ b, keys[resendStart keys (some cursor)]? = some b ∧ Resumes keys cursor b := by
  rw [resendStart_some]
  have hle : (keys.findIdx fun k => cursor ≤ k) ≤ keys.length := List.findIdx_le_length
  rcases hle.eq_or_lt with he | hlt
  · have hbelow (k : K) (hk : k ∈ keys) : k < cursor := by
      simpa using List.findIdx_eq_length.1 he k hk
    obtain ⟨b, rest, rfl⟩ := List.exists_cons_of_ne_nil hne
    refine ⟨b, by rw [he, Nat.mod_self]; rfl, .wrap hbelow fun k hk => ?_⟩
    rcases List.mem_cons.1 hk with rfl | hk
    · exact le_rfl
    · exact ((List.pairwise_cons.1 hkeys).1 k hk).le
  · rw [Nat.mod_eq_of_lt hlt]
    refine ⟨_, List.getElem?_eq_getElem hlt, .past ?_ fun k hk hle => ?_⟩
    · simpa using List.findIdx_getElem (w := hlt)
    · obtain ⟨j, hj, rfl⟩ := List.getElem_of_mem hk
      rcases Nat.lt_or_ge j (keys.findIdx fun k => cursor ≤ k) with hjlt | hge
      · exact absurd hle (by simpa using List.not_of_lt_findIdx hjlt)
      · rcases hge.eq_or_lt with he | hlt'
        · simp only [he, le_refl]
        · exact (List.pairwise_iff_getElem.1 hkeys _ _ hlt hj hlt').le

theorem exists_start {keys : List K} (hkeys : keys.Pairwise (· < ·)) (hne : keys ≠ [])
    (cursor : Option K) : ∃ a, keys[resendStart keys cursor]? = some a := by
  cases cursor with
  | none =>
    obtain ⟨a, rest, rfl⟩ := List.exists_cons_of_ne_nil hne
    exact ⟨a, rfl⟩
  | some cursor =>
    obtain ⟨a, ha, -⟩ := resendStart_resumes hkeys hne cursor
    exact ⟨a, ha⟩

theorem keys_ne_nil {live : HashSet K} (h : k ∈ live) : sortedKeys live ≠ [] :=
  List.ne_nil_of_mem (mem_sortedKeys.2 h)

structure Resends (encode : Message K (Entry T V) (State V) A → Bytes) (R : Rsos T V)
    (cursor : Option K) (input : ResendInput K V T)
    (round : ResendRound K (Message K (Entry T V) (State V) A)) (cursor' : Option K) : Prop where
  start : (sortedKeys input.live)[resendStart (sortedKeys input.live) cursor]? = round.start
  visits : Visits encode R input.map
    (around (sortedKeys input.live) (resendStart (sortedKeys input.live) cursor)) input.buf round
    cursor'
  progress : round.visited ≠ []
  acks_ne : ∀ k ∈ sortedKeys input.live, (heldAck (A := A) R input.map k).isSome = true →
    round.acks ≠ []

theorem resends (encode : Message K (Entry T V) (State V) A → Bytes) (R : Rsos T V)
    (cursor : Option K) {input : ResendInput K V T} (hne : sortedKeys input.live ≠ []) :
    Resends encode R cursor input (resendHeldTombstoneAcks encode R cursor input).1
      (resendHeldTombstoneAcks encode R cursor input).2 := by
  obtain ⟨a, ha⟩ := exists_start (pairwise_sortedKeys input.live) hne cursor
  have hhead := head?_around ha
  have hwalkNe :
      around (sortedKeys input.live) (resendStart (sortedKeys input.live) cursor) ≠ [] := by
    intro hnil
    rw [hnil] at hhead
    cases hhead
  have hroom : input.buf.length < input.buf.length + tombstoneAckResendByteBudget :=
    Nat.lt_add_of_pos_right (by decide)
  rw [resendHeldTombstoneAcks, if_neg (by simpa using hne)]
  have hvisits := resendLoop_visits encode R input.map
    (input.buf.length + tombstoneAckResendByteBudget)
    (around (sortedKeys input.live) (resendStart (sortedKeys input.live) cursor)) input.buf
  have hvisited := resendLoop_visited encode R input.map hroom hwalkNe
  refine ⟨?_, hvisits, hvisited, fun k hk hack =>
    resendLoop_acks encode input.map hroom (mem_around.2 hk) hack⟩
  obtain ⟨rest, hwalk, -⟩ := hvisits.walk
  rw [hwalk, List.head?_append_of_ne_nil _ hvisited] at hhead
  rw [hvisits.start, hhead, ha]

variable {cursor cursor' cursor'' : Option K} {input input' : ResendInput K V T}
variable {round round' : ResendRound K (Message K (Entry T V) (State V) A)}

/-- A key that is indexed in two rounds was visited in the first if it lies before the start of
the second. -/
theorem Resends.visited_of_span (h : Resends encode R cursor input round cursor')
    (h' : Resends encode R cursor' input' round' cursor'') (hk : k ∈ sortedKeys input.live)
    (hk' : k ∈ sortedKeys input'.live) (ha : round.start = some a) (hb : round'.start = some b)
    (hspan : Span a b k) : k ∈ round.visited := by
  obtain ⟨rest, hwalk, hcursor⟩ := h.visits.walk
  cases rest with
  | nil =>
    -- the round came around: it visited everything
    rw [List.append_nil] at hwalk
    rw [← hwalk]
    exact mem_around.2 hk
  | cons u rest =>
    subst hcursor
    obtain ⟨b', hb', hresumes⟩ :=
      resendStart_resumes (pairwise_sortedKeys input'.live) (List.ne_nil_of_mem hk') u
    have hbb' : b' = b := Option.some.inj (hb'.symm.trans (h'.start.trans hb))
    subst hbb'
    exact mem_seen (pairwise_sortedKeys input.live) (h.start.trans ha) hwalk h.progress hk
      (hspan.of_resumes hresumes hk')

def ResendInput.Holds (input : ResendInput K V T) (k : K) (v : Entry T V) : Prop :=
  k ∈ input.live ∧ input.map.lookup k = some v ∧ v.isTombstone = true

theorem ResendInput.Holds.heldAck_eq (h : input.Holds k v) :
    heldAck (A := A) R input.map k = some (ackOf R k v) := by
  rw [heldAck, h.2.1, Option.filter_some, if_pos h.2.2]
  rfl

theorem Resends.acked (h : Resends encode R cursor input round cursor') (hv : k ∈ round.visited)
    (hk : input.Holds k v) : ackOf R k v ∈ round.acks := by
  rw [h.visits.acks]
  exact List.mem_filterMap.2 ⟨k, hv, hk.heldAck_eq⟩

theorem around_resendStart {live : HashSet K}
    (hwalk : around (sortedKeys live) (resendStart (sortedKeys live) cursor) =
      visited ++ u :: rest) :
    around (sortedKeys live) (resendStart (sortedKeys live) (some u)) = u :: rest ++ visited := by
  have hu : u ∈ sortedKeys live := by
    rw [← mem_around (i := resendStart (sortedKeys live) cursor), hwalk]
    exact List.mem_append_right _ List.mem_cons_self
  obtain ⟨a, ha⟩ := exists_start (pairwise_sortedKeys live) (List.ne_nil_of_mem hu) cursor
  obtain ⟨b, hb, hresumes⟩ :=
    resendStart_resumes (pairwise_sortedKeys live) (List.ne_nil_of_mem hu) u
  have hub : b = u := by
    cases hresumes with
    | past hle hleast => exact le_antisymm (hleast u hu le_rfl) hle
    | wrap hbelow => exact absurd (hbelow u hu) (lt_irrefl u)
  rw [hub] at hb
  exact around_next (pairwise_sortedKeys live) (List.getElem?_eq_some_iff.1 ha).1 hwalk hb

/-- With as many rounds over the same keys as there are keys up to it, a key is visited. -/
theorem visited_of_rounds
    {rounds : List (ResendInput K V T × ResendRound K (Message K (Entry T V) (State V) A))}
    {live : HashSet K} (h : Traces (resendHeldTombstoneAcks encode R) cursor rounds cursor')
    (hsame : ∀ e ∈ rounds, ∀ k, k ∈ e.1.live ↔ k ∈ live) (hk : k ∈ live)
    (hidx : (around (sortedKeys live) (resendStart (sortedKeys live) cursor)).idxOf k <
      rounds.length) :
    ∃ e ∈ rounds, k ∈ e.2.visited := by
  induction rounds generalizing cursor with
  | nil => exact absurd hidx (Nat.not_lt_zero _)
  | cons e rounds ih =>
    obtain ⟨hround, htail⟩ := h.uncons
    have hkeys : sortedKeys e.1.live = sortedKeys live := sortedKeys_eq (hsame e List.mem_cons_self)
    have hr := resends encode R cursor (keys_ne_nil ((hsame e List.mem_cons_self k).2 hk))
    rw [← hround] at hr
    by_cases hv : k ∈ e.2.visited
    · exact ⟨e, List.mem_cons_self, hv⟩
    obtain ⟨rest, hwalk, hcursor⟩ := hr.visits.walk
    rw [hkeys] at hwalk
    have hrest : k ∈ rest := by
      have hmem := mem_around (i := resendStart (sortedKeys live) cursor).2 (mem_sortedKeys.2 hk)
      rw [hwalk] at hmem
      exact (List.mem_append.1 hmem).resolve_left hv
    obtain ⟨u, rest, rfl⟩ := List.exists_cons_of_ne_nil (List.ne_nil_of_mem hrest)
    rw [hcursor, List.head?_cons] at htail
    -- the key is nearer by what this round visited
    have hlater : (around (sortedKeys live) (resendStart (sortedKeys live) (some u))).idxOf k <
        rounds.length := by
      rw [hwalk, List.idxOf_append_of_notMem hv, List.length_cons] at hidx
      rw [around_resendStart hwalk, List.idxOf_append_of_mem hrest]
      have hpos := List.length_pos_of_ne_nil hr.progress
      omega
    obtain ⟨e', hmem, hseen⟩ :=
      ih htail (fun e he => hsame e (List.mem_cons_of_mem _ he)) hlater
    exact ⟨e', List.mem_cons_of_mem _ hmem, hseen⟩

theorem exists_cursor
    {tr : List (ResendInput K V T × ResendRound K (Message K (Entry T V) (State V) A))}
    (h : Traces (resendHeldTombstoneAcks encode R) cursor tr cursor') (he : e ∈ tr) :
    ∃ c, e.2 = (resendHeldTombstoneAcks encode R c e.1).1 := by
  obtain ⟨tr₁, tr₂, rfl⟩ := List.append_of_mem he
  obtain ⟨c, -, h⟩ := h.split
  exact ⟨c, h.uncons.1⟩

theorem resend_buf (cursor : Option K) (input : ResendInput K V T) :
    (resendHeldTombstoneAcks encode R cursor input).1.buf =
      input.buf ++
        (resendHeldTombstoneAcks encode R cursor input).1.acks.flatMap encode := by
  by_cases hne : sortedKeys input.live = []
  · have hempty : (sortedKeys input.live).isEmpty = true := by rw [hne]; rfl
    rw [resendHeldTombstoneAcks, if_pos hempty]
    exact (List.append_nil _).symm
  · exact (resends encode R cursor hne).visits.buf

/-- Rounds over whatever is written between them, from any cursor. A round appends what it
acknowledges; it visits at least one key if there are any, and acknowledges at least one tombstone
if there are any. A tombstone of two rounds in a row that lies from the start of the first up to
the start of the second is acknowledged in the first with the version it has there. As many rounds
as there are tombstones, while these stay, acknowledge all of them. -/
theorem tombstone_acks_never_skipped
    (encode : Message K (Entry T V) (State V) A → Bytes) (R : Rsos T V)
    {tr : List (ResendInput K V T × ResendRound K (Message K (Entry T V) (State V) A))}
    (h : Traces (resendHeldTombstoneAcks encode R) cursor tr cursor') :
    (∀ e ∈ tr, e.2.buf = e.1.buf ++ e.2.acks.flatMap encode ∧
      (∀ k ∈ e.1.live, e.2.visited ≠ []) ∧ ∀ k v, e.1.Holds k v → e.2.acks ≠ []) ∧
    (∀ tr₁ e e' tr₂, tr = tr₁ ++ e :: e' :: tr₂ → ∀ k v v' a b, e.1.Holds k v →
      e'.1.Holds k v' → e.2.start = some a → e'.2.start = some b → Span a b k →
      ackOf R k v ∈ e.2.acks) ∧
    ∀ tr₁ rounds tr₂ (live : HashSet K), tr = tr₁ ++ rounds ++ tr₂ → live.len ≤ rounds.length →
      (∀ e ∈ rounds, ∀ k, k ∈ e.1.live ↔ k ∈ live) →
      (∀ e ∈ rounds, ∀ k ∈ live, ∃ v, e.1.Holds k v) →
      ∀ k ∈ live, ∃ e ∈ rounds, ∃ v, e.1.Holds k v ∧ ackOf R k v ∈ e.2.acks := by
  refine ⟨fun e he => ?_, ?_, ?_⟩
  · obtain ⟨c, hc⟩ := exists_cursor h he
    rw [hc]
    refine ⟨resend_buf c e.1, fun k hk => (resends encode R c (keys_ne_nil hk)).progress,
      fun k v hk => ?_⟩
    apply (resends encode R c (keys_ne_nil hk.1)).acks_ne k (mem_sortedKeys.2 hk.1)
    rw [hk.heldAck_eq]
    rfl
  · rintro tr₁ e e' tr₂ rfl k v v' a b hk hk' ha hb hspan
    obtain ⟨c, -, h⟩ := h.split
    obtain ⟨hround, h⟩ := h.uncons
    obtain ⟨hround', -⟩ := h.uncons
    have hr := resends encode R c (keys_ne_nil hk.1)
    have hr' := resends encode R (resendHeldTombstoneAcks encode R c e.1).2 (keys_ne_nil hk'.1)
    rw [← hround] at hr
    rw [← hround'] at hr'
    exact hr.acked (hr.visited_of_span hr' (mem_sortedKeys.2 hk.1) (mem_sortedKeys.2 hk'.1) ha hb
      hspan) hk
  · rintro tr₁ rounds tr₂ live rfl hlen hsame hholds k hk
    obtain ⟨c', h, -⟩ := h.split
    obtain ⟨c, -, h⟩ := h.split
    have hidx : (around (sortedKeys live) (resendStart (sortedKeys live) c)).idxOf k <
        rounds.length := by
      have hlt := List.idxOf_lt_length_iff.2
        (mem_around (i := resendStart (sortedKeys live) c).2 (mem_sortedKeys.2 hk))
      rw [length_around, length_sortedKeys] at hlt
      exact hlt.trans_le hlen
    obtain ⟨e, he, hv⟩ := visited_of_rounds h hsame hk hidx
    obtain ⟨v, hkv⟩ := hholds e he k hk
    obtain ⟨c₁, hc₁⟩ := exists_cursor h he
    have hr := resends encode R c₁ (keys_ne_nil hkv.1)
    rw [← hc₁] at hr
    exact ⟨e, he, v, hkv, hr.acked hv hkv⟩

def stampRegister : Rsos Nat Unit where
  toMerge := Merge.keepLocal Nat Unit
  digest _ := 0
  entryDigest e := e.stamp

def threeTombstones : ResendInput Nat Unit Nat where
  live := AList.insert 3 () (AList.insert 1 () (AList.insert 2 () ∅))
  map := AList.insert 3 (.tombstone 30) (AList.insert 1 (.tombstone 10)
    (AList.insert 2 (.tombstone 20) ∅))
  buf := []

def wholeDatagram (_ : Message Nat (Entry Nat Unit) (State Unit) Unit) : Bytes :=
  List.replicate tombstoneAckResendByteBudget 0

theorem tombstone_acks_never_skipped_three :
    ∃ tr cursor, Traces (resendHeldTombstoneAcks wholeDatagram stampRegister) none tr cursor ∧
      tr.map (fun e => e.2.visited) = [[1], [2], [3]] ∧
      (∀ e ∈ tr, e.2.buf = e.1.buf ++ e.2.acks.flatMap wholeDatagram ∧
        (∀ k ∈ e.1.live, e.2.visited ≠ []) ∧ ∀ k v, e.1.Holds k v → e.2.acks ≠ []) ∧
      (∃ e ∈ tr, ackOf stampRegister 1 (.tombstone 10) ∈ e.2.acks) ∧
      ∃ e ∈ tr, ∃ v, e.1.Holds 3 v ∧ ackOf stampRegister 3 v ∈ e.2.acks := by
  have hlive (k : Nat) (hk : k ∈ threeTombstones.live) :
      threeTombstones.Holds k (.tombstone (10 * k)) := by
    have hcases : k ∈ [3, 1, 2] := hk
    rcases (by simpa using hcases : k = 3 ∨ k = 1 ∨ k = 2) with rfl | rfl | rfl <;>
      exact ⟨hk, rfl, rfl⟩
  have hall {tr cursor} (h : Traces (resendHeldTombstoneAcks wholeDatagram stampRegister) none tr
      cursor) (hinputs : tr.map Prod.fst = List.replicate 3 threeTombstones) :
      ∃ e ∈ tr, ∃ v, e.1.Holds 3 v ∧ ackOf stampRegister 3 v ∈ e.2.acks := by
    have hlen : 3 = tr.length := by simpa using congrArg List.length hinputs.symm
    have hinput (e) (he : e ∈ tr) : e.1 = threeTombstones := by
      have hmem := List.mem_map_of_mem (f := Prod.fst) he
      rw [hinputs] at hmem
      exact List.eq_of_mem_replicate hmem
    refine (tombstone_acks_never_skipped wholeDatagram stampRegister h).2.2 [] tr []
      threeTombstones.live (List.append_nil _).symm hlen.le (fun e he k => ?_)
      (fun e he k hk => ?_) 3 (by decide)
    · rw [hinput e he]
    · rw [hinput e he]
      exact ⟨_, hlive k hk⟩
  have h₀ : Traces (resendHeldTombstoneAcks wholeDatagram stampRegister) none [] none := .start
  have h := ((h₀.snoc threeTombstones).snoc threeTombstones).snoc threeTombstones
  have hnever := tombstone_acks_never_skipped wholeDatagram stampRegister h
  refine ⟨_, _, h, by decide +kernel, hnever.1, ?_, hall h rfl⟩
  refine ⟨_, List.mem_cons_self, hnever.2.1 [] _ _ _ rfl 1 _ _ 1 2 (hlive 1 (by decide))
    (hlive 1 (by decide)) ?_ ?_ ?_⟩
  all_goals decide +kernel

end Reconcile
