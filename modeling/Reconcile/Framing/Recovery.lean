import Reconcile.Framing.Reassembly

namespace Reconcile
open Lib
set_option autoImplicit true

def missingReportTag : UInt8 := 2
def completionAckTag : UInt8 := 3

def missingReportHeaderLen : Nat := 35

def missingRangeLen : Nat := 8

def completionAckLen : Nat := 33

structure FragmentMetadata where
  transferId : TransferId
  totalLen : Nat
  offset : Nat
  payloadLen : Nat

def FragmentMetadata.isTerminal (m : FragmentMetadata) : Bool :=
  m.offset + m.payloadLen = m.totalLen

def fragmentMetadata (bytes : Bytes) : Option FragmentMetadata :=
  if h : bytes.head? = some fragmentTag ∧ fragmentHeaderLen < bytes.length then
    let f := readFragment bytes (Nat.le_of_lt h.2)
    some ⟨f.id, f.totalLen, f.offset, f.bytes.length⟩
  else none

inductive RecoveryControl where
  | missing (transferId : TransferId) (ranges : List (Nat × Nat))
  | completeAck (transferId : TransferId)

inductive RecoveryControlError where
  | truncated
  | invalidLength
  | tooManyRanges
  | invalidRange
  deriving DecidableEq, Repr

def maxMissingRangesForBudget (budget overhead configuredMax : Nat) : Nat :=
  let fit :=
    if overhead + missingReportHeaderLen ≤ budget then
      (budget - (overhead + missingReportHeaderLen)) / missingRangeLen
    else 0
  min (min fit configuredMax) 65535

/-- Ranges are non-empty, end within 32 bits and do not go back. -/
def validateRanges : Nat → List (Nat × Nat) → Except RecoveryControlError Unit
  | _, [] => .ok ()
  | previousEnd, (offset, len) :: ranges =>
    if len = 0 then .error .invalidRange
    else if 2 ^ 32 ≤ offset + len then .error .invalidRange
    else if offset < previousEnd then .error .invalidRange
    else validateRanges (offset + len) ranges

def rangeBytes (ranges : List (Nat × Nat)) : Bytes :=
  ranges.flatMap fun g => Wire.leBytes 4 g.1 ++ Wire.leBytes 4 g.2

def writeMissingReport (id : TransferId) (ranges : List (Nat × Nat)) :
    Except RecoveryControlError Bytes :=
  if 65535 < ranges.length then .error .tooManyRanges
  else
    match validateRanges 0 ranges with
    | .error e => .error e
    | .ok () =>
      .ok (missingReportTag :: (id.bytes ++ (Wire.leBytes 2 ranges.length ++ rangeBytes ranges)))

def writeCompletionAck (id : TransferId) : Bytes := completionAckTag :: id.bytes

def readRanges : Nat → Bytes → List (Nat × Nat)
  | 0, _ => []
  | n + 1, bytes =>
    (Wire.leNat (bytes.take 4), Wire.leNat ((bytes.drop 4).take 4)) :: readRanges n (bytes.drop 8)

theorem id_le_of_missingReport {tag : UInt8} {body : Bytes}
    (h : missingReportHeaderLen ≤ (tag :: body).length) : 32 ≤ body.length := by
  unfold missingReportHeaderLen at h
  rw [List.length_cons] at h
  omega

theorem id_le_of_completionAck {tag : UInt8} {body : Bytes}
    (h : completionAckLen ≤ (tag :: body).length) : 32 ≤ body.length := by
  unfold completionAckLen at h
  rw [List.length_cons] at h
  omega

/-- Ordinary framing tags give no control message. -/
def parseRecoveryControl (bytes : Bytes) (maxMissingRanges : Nat) :
    Except RecoveryControlError (Option RecoveryControl) :=
  match bytes with
  | [] => .ok none
  | tag :: body =>
    if tag = missingReportTag then
      if h : missingReportHeaderLen ≤ (tag :: body).length then
        let id := Fixed.front 32 body (id_le_of_missingReport h)
        let count := Wire.leNat ((body.drop 32).take 2)
        if maxMissingRanges < count then .error .tooManyRanges
        else if (tag :: body).length ≠ missingReportHeaderLen + count * missingRangeLen then
          .error .invalidLength
        else
          let ranges := readRanges count (body.drop 34)
          match validateRanges 0 ranges with
          | .error e => .error e
          | .ok () => .ok (some (.missing id ranges))
      else .error .truncated
    else if tag = completionAckTag then
      if h : completionAckLen ≤ (tag :: body).length then
        if (tag :: body).length ≠ completionAckLen then .error .invalidLength
        else
          .ok (some (.completeAck (Fixed.front 32 body (id_le_of_completionAck h))))
      else .error .truncated
    else .ok none

theorem rangeBytes_length (ranges : List (Nat × Nat)) :
    (rangeBytes ranges).length = ranges.length * missingRangeLen := by
  induction ranges with
  | nil => rfl
  | cons g ranges ih =>
    rw [rangeBytes, List.flatMap_cons, ← rangeBytes, List.length_append, List.length_append, ih,
      Wire.leBytes_length, Wire.leBytes_length, List.length_cons, Nat.add_mul, missingRangeLen]
    omega

theorem readRanges_rangeBytes (ranges : List (Nat × Nat))
    (h : ∀ g ∈ ranges, g.1 < 2 ^ 32 ∧ g.2 < 2 ^ 32) :
    readRanges ranges.length (rangeBytes ranges) = ranges := by
  have hlen : ∀ n, (Wire.leBytes 4 n).length = 4 := Wire.leBytes_length 4
  induction ranges with
  | nil => rfl
  | cons g ranges ih =>
    obtain ⟨h1, h2⟩ := h g List.mem_cons_self
    have hbytes : rangeBytes (g :: ranges) =
        Wire.leBytes 4 g.1 ++ (Wire.leBytes 4 g.2 ++ rangeBytes ranges) := by
      rw [rangeBytes, List.flatMap_cons, List.append_assoc, rangeBytes]
    have h4 : (rangeBytes (g :: ranges)).drop 4 = Wire.leBytes 4 g.2 ++ rangeBytes ranges := by
      rw [hbytes, List.drop_left' (hlen _)]
    have h8 : (rangeBytes (g :: ranges)).drop 8 = rangeBytes ranges := by
      rw [show 8 = 4 + 4 from rfl, ← List.drop_drop, h4, List.drop_left' (hlen _)]
    rw [List.length_cons, readRanges, h4, h8, hbytes, List.take_left' (hlen _),
      List.take_left' (hlen _), Wire.leNat_leBytes 4 _ h1, Wire.leNat_leBytes 4 _ h2,
      ih fun g hg => h g (List.mem_cons_of_mem _ hg)]

theorem validateRanges_word (h : validateRanges n ranges = .ok ()) :
    ∀ g ∈ ranges, g.1 < 2 ^ 32 ∧ g.2 < 2 ^ 32 := by
  induction ranges generalizing n with
  | nil => exact fun g hg => absurd hg List.not_mem_nil
  | cons g ranges ih =>
    obtain ⟨offset, len⟩ := g
    rw [validateRanges] at h
    split at h
    · cases h
    split at h
    · cases h
    split at h
    · cases h
    · intro g' hg'
      rcases List.mem_cons.1 hg' with rfl | hg'
      · simp only
        omega
      · exact ih h g' hg'

theorem validateRanges_ok {ranges : List (Nat × Nat)} (hstart : ∀ g ∈ ranges, n ≤ g.1)
    (hrange : ∀ g ∈ ranges, 0 < g.2 ∧ g.1 + g.2 < 2 ^ 32)
    (hsort : ranges.Pairwise fun g g' => g.1 + g.2 < g'.1) : validateRanges n ranges = .ok () := by
  induction ranges generalizing n with
  | nil => rfl
  | cons g ranges ih =>
    obtain ⟨hhead, htail⟩ := List.pairwise_cons.1 hsort
    obtain ⟨hpos, hword⟩ := hrange g List.mem_cons_self
    have hn := hstart g List.mem_cons_self
    rw [validateRanges, if_neg (by omega), if_neg (by omega), if_neg (by omega)]
    exact ih (fun g' hg' => Nat.le_of_lt (hhead g' hg'))
      (fun g' hg' => hrange g' (List.mem_cons_of_mem g hg')) htail

theorem length_writeMissingReport {id : TransferId} (h : writeMissingReport id ranges = .ok frame) :
    frame.length = missingReportHeaderLen + ranges.length * missingRangeLen := by
  unfold writeMissingReport at h
  split at h
  · cases h
  split at h
  · cases h
  cases h
  simp only [List.length_cons, List.length_append, Fixed.length_eq, Wire.leBytes_length,
    rangeBytes_length, missingReportHeaderLen]
  omega

/-- A report for as many ranges as a budget has room for fits it. -/
theorem report_le_budget {id : TransferId} (h : writeMissingReport id ranges = .ok frame)
    (hroom : overhead + missingReportHeaderLen ≤ budget)
    (hlen : ranges.length ≤ maxMissingRangesForBudget budget overhead configuredMax) :
    frame.length + overhead ≤ budget := by
  rw [maxMissingRangesForBudget, if_pos hroom] at hlen
  have hfit : ranges.length ≤ (budget - (overhead + missingReportHeaderLen)) / missingRangeLen :=
    hlen.trans ((Nat.min_le_left _ _).trans (Nat.min_le_left _ _))
  have hbytes := (Nat.le_div_iff_mul_le (by decide)).1 hfit
  rw [length_writeMissingReport h]
  omega

theorem parse_writeMissingReport {id : TransferId} (h : writeMissingReport id ranges = .ok bytes)
    (hmax : ranges.length ≤ limit) :
    parseRecoveryControl bytes limit = .ok (some (.missing id ranges)) := by
  unfold writeMissingReport at h
  split at h
  · cases h
  next hcount =>
  split at h
  · cases h
  next hvalid =>
  cases h
  have hid := id.length_eq
  have h2 : (Wire.leBytes 2 ranges.length).length = 2 := Wire.leBytes_length 2 _
  have hread := readRanges_rangeBytes ranges (validateRanges_word hvalid)
  have hsize : (missingReportTag :: (id.bytes ++ (Wire.leBytes 2 ranges.length ++
      rangeBytes ranges))).length = missingReportHeaderLen + ranges.length * missingRangeLen := by
    rw [List.length_cons, List.length_append, List.length_append, hid, h2, rangeBytes_length,
      missingReportHeaderLen]
    omega
  have h32 : (id.bytes ++ (Wire.leBytes 2 ranges.length ++ rangeBytes ranges)).drop 32 =
      Wire.leBytes 2 ranges.length ++ rangeBytes ranges := List.drop_left' hid
  have h34 : (id.bytes ++ (Wire.leBytes 2 ranges.length ++ rangeBytes ranges)).drop 34 =
      rangeBytes ranges := by
    rw [show 34 = 32 + 2 from rfl, ← List.drop_drop, h32, List.drop_left' h2]
  have hcount' : Wire.leNat ((Wire.leBytes 2 ranges.length ++ rangeBytes ranges).take 2) =
      ranges.length := by
    rw [List.take_left' h2]
    exact Wire.leNat_leBytes 2 _ (by omega)
  unfold parseRecoveryControl
  simp only [if_true, hsize, dif_pos (Nat.le_add_right missingReportHeaderLen _), h32, hcount',
    if_neg (Nat.not_lt.2 hmax), ne_eq, not_true_eq_false, if_false, h34, hread, hvalid,
    Fixed.front_append]

namespace Transfer

def missingLoop (totalLen maxRanges : Nat) :
    Nat → List (Nat × Bytes) → List (Nat × Nat) → List (Nat × Nat)
  | cursor, [], ranges =>
    if cursor < totalLen then ranges ++ [(cursor % 2 ^ 32, (totalLen - cursor) % 2 ^ 32)]
    else ranges
  | cursor, (offset, bytes) :: rest, ranges =>
    if cursor < offset then
      if (ranges ++ [(cursor % 2 ^ 32, (offset - cursor) % 2 ^ 32)]).length = maxRanges then
        ranges ++ [(cursor % 2 ^ 32, (offset - cursor) % 2 ^ 32)]
      else
        missingLoop totalLen maxRanges (offset + bytes.length) rest
          (ranges ++ [(cursor % 2 ^ 32, (offset - cursor) % 2 ^ 32)])
    else missingLoop totalLen maxRanges (offset + bytes.length) rest ranges

def missingRanges (t : Transfer) (maxRanges : Nat) : List (Nat × Nat) :=
  if maxRanges = 0 then [] else missingLoop t.totalLen maxRanges 0 t.fragments []

theorem missingLoop_eq (hword : total < 2 ^ 32) (hs : Pieces.Spaced cursor ps total)
    (hroom : ranges.length < limit) :
    missingLoop total limit cursor ps ranges =
      ranges ++ (Pieces.gaps cursor ps total).take (limit - ranges.length) := by
  have hone : ∀ g : Nat × Nat, [g].take (limit - ranges.length) = [g] := by
    intro g
    apply List.take_of_length_le
    rw [List.length_singleton]
    omega
  induction ps generalizing cursor ranges with
  | nil =>
    have hle : cursor ≤ total := hs
    rw [missingLoop, Pieces.gaps]
    split
    · rw [hone, Nat.mod_eq_of_lt (by omega), Nat.mod_eq_of_lt (by omega)]
    · rw [List.take_nil, List.append_nil]
  | cons p ps ih =>
    obtain ⟨offset, bytes⟩ := p
    obtain ⟨hlo, hne, hs⟩ := hs
    have hend := hs.le
    simp only at hlo hend
    rw [missingLoop, Pieces.gaps]
    split
    · next hlt =>
      rw [Nat.mod_eq_of_lt (by omega), Nat.mod_eq_of_lt (by omega), List.singleton_append]
      obtain ⟨k, hk⟩ : ∃ k, limit - ranges.length = k + 1 := ⟨limit - ranges.length - 1, by omega⟩
      have hlen : (ranges ++ [(cursor, offset - cursor)]).length = ranges.length + 1 := by
        rw [List.length_append, List.length_singleton]
      rw [hk, List.take_succ_cons]
      split
      · next hmax =>
        have hzero : k = 0 := by omega
        rw [hzero, List.take_zero]
      · next hmax =>
        rw [ih hs (by omega) _, hlen, show limit - (ranges.length + 1) = k by omega,
          List.append_assoc, List.singleton_append]
        intro g
        apply List.take_of_length_le
        rw [List.length_singleton]
        omega
    · rw [List.nil_append]
      exact ih hs hroom hone

/-- The ranges reported are the first ones that no fragment covers. -/
theorem missingRanges_eq (t : Transfer) (hword : t.totalLen < 2 ^ 32) (maxRanges : Nat) :
    t.missingRanges maxRanges = (Pieces.gaps 0 t.fragments t.totalLen).take maxRanges := by
  rw [missingRanges]
  split
  · next h => rw [h, List.take_zero]
  · next h =>
    rw [missingLoop_eq hword t.spaced (Nat.pos_of_ne_zero h), List.nil_append, List.length_nil,
      Nat.sub_zero]

theorem writeMissingReport_missingRanges (t : Transfer) (hword : t.totalLen < 2 ^ 32)
    (hm : m ≤ 65535) (id : TransferId) :
    ∃ frame, writeMissingReport id (t.missingRanges m) = .ok frame := by
  rw [t.missingRanges_eq hword]
  have hlen : ¬ 65535 < ((Pieces.gaps 0 t.fragments t.totalLen).take m).length := by
    rw [List.length_take]
    omega
  have hvalid : validateRanges 0 ((Pieces.gaps 0 t.fragments t.totalLen).take m) = .ok () := by
    apply validateRanges_ok (fun _ _ => Nat.zero_le _)
    · intro g hg
      have hb := Pieces.gaps_bounds t.spaced (List.mem_of_mem_take hg)
      omega
    · exact (Pieces.gaps_pairwise t.spaced).sublist (List.take_sublist m _)
  rw [writeMissingReport, if_neg hlen, hvalid]
  exact ⟨_, rfl⟩

/-- A request is due when none was made within the interval. -/
def due (t : Transfer) (now interval : Nat) : Bool :=
  match t.lastMissingRequest with
  | none => true
  | some last => interval ≤ now - last

def requested (t : Transfer) (now : Nat) : Transfer := { t with lastMissingRequest := some now }

end Transfer

structure MissingRequest (P : Type) where
  peer : P
  transferId : TransferId
  ranges : List (Nat × Nat)

namespace Reassembler

variable {P : Type} [LinearOrder P]

def missingRanges (r : Reassembler P) (peer : P) (id : TransferId) (maxRanges : Nat) :
    List (Nat × Nat) :=
  if maxRanges = 0 then []
  else
    match r.transfer peer id with
    | none => []
    | some t => t.missingRanges maxRanges

def missingRangesIfDue (r : Reassembler P) (peer : P) (id : TransferId) (now interval : Nat)
    (maxRanges : Nat) : Reassembler P × List (Nat × Nat) :=
  if maxRanges = 0 then (r, [])
  else
    match r.transfer peer id with
    | none => (r, [])
    | some t =>
      if t.due now interval then
        if t.missingRanges maxRanges = [] then (r, [])
        else (r.put peer id (t.requested now) 0, t.missingRanges maxRanges)
      else (r, [])

/-- Transfers idle for long enough whose next request is due, in key order. -/
def idleCandidates (r : Reassembler P) (now minIdle interval : Nat) : List (P × TransferId) :=
  (((r.held.filter fun t => minIdle ≤ now - t.2.lastActivity && t.2.due now interval).map
    fun t => toLex t.1).mergeSort fun a b => a ≤ b).map ofLex

def pollLoop (now maxRanges maxReports : Nat) :
    List (P × TransferId) → Reassembler P → List (MissingRequest P) →
      Reassembler P × List (MissingRequest P)
  | [], r, reports => (r, reports)
  | (peer, id) :: candidates, r, reports =>
    if maxReports ≤ reports.length then (r, reports)
    else
      match r.transfer peer id with
      | none => pollLoop now maxRanges maxReports candidates r reports
      | some t =>
        if t.missingRanges maxRanges = [] then
          pollLoop now maxRanges maxReports candidates r reports
        else
          pollLoop now maxRanges maxReports candidates (r.put peer id (t.requested now) 0)
            (reports ++ [⟨peer, id, t.missingRanges maxRanges⟩])

def pollIdleMissing (r : Reassembler P) (now minIdle interval maxRanges maxReports : Nat) :
    Reassembler P × List (MissingRequest P) :=
  if maxRanges = 0 then (r, [])
  else if maxReports = 0 then (r, [])
  else pollLoop now maxRanges maxReports (r.idleCandidates now minIdle interval) r []

end Reassembler

end Reconcile
