import Reconcile.Framing.Recovery

namespace Reconcile
open Lib
set_option autoImplicit true

structure Ascending (ranges : List (Nat × Nat)) : Prop where
  nonempty : ∀ g ∈ ranges, 0 < g.2
  apart : ranges.Pairwise fun g g' => g.1 + g.2 ≤ g'.1

/-- The check accepts the ascending ranges whose ends fit in 32 bits and that start late enough. -/
theorem validateRanges_iff :
    validateRanges start ranges = .ok () ↔
      Ascending ranges ∧ ∀ g ∈ ranges, start ≤ g.1 ∧ g.1 + g.2 < 2 ^ 32 := by
  induction ranges generalizing start with
  | nil =>
    constructor
    · intro _
      exact ⟨⟨by simp, .nil⟩, by simp⟩
    · intro _
      rfl
  | cons g ranges ih =>
    obtain ⟨offset, len⟩ := g
    rw [validateRanges]
    constructor
    · intro h
      split at h
      · cases h
      next hlen =>
      split at h
      · cases h
      next hend =>
      split at h
      · cases h
      next hstart =>
      obtain ⟨hranges, hafter⟩ := ih.1 h
      refine ⟨⟨?_, List.pairwise_cons.2 ⟨fun g hg => (hafter g hg).1, hranges.apart⟩⟩, ?_⟩
      · rintro g (_ | ⟨_, hg⟩)
        · exact Nat.pos_of_ne_zero hlen
        · exact hranges.nonempty g hg
      · rintro g (_ | ⟨_, hg⟩)
        · exact ⟨Nat.not_lt.1 hstart, Nat.not_le.1 hend⟩
        · obtain ⟨hlo, hhi⟩ := hafter g hg
          exact ⟨by omega, hhi⟩
    · rintro ⟨hranges, hword⟩
      obtain ⟨hlo, hhi⟩ := hword _ List.mem_cons_self
      obtain ⟨hapart, hrest⟩ := List.pairwise_cons.1 hranges.apart
      rw [if_neg (Nat.ne_of_gt (hranges.nonempty _ List.mem_cons_self)), if_neg (Nat.not_le.2 hhi),
        if_neg (Nat.not_lt.2 hlo)]
      apply ih.2
      refine ⟨⟨fun g hg => hranges.nonempty g (List.mem_cons_of_mem _ hg), hrest⟩, ?_⟩
      intro g hg
      exact ⟨hapart g hg, (hword g (List.mem_cons_of_mem _ hg)).2⟩

theorem writeMissingReport_of_ascending (id : TransferId) (hcount : ranges.length ≤ 65535)
    (h : Ascending ranges) (hword : ∀ g ∈ ranges, g.1 + g.2 < 2 ^ 32) :
    ∃ bytes, writeMissingReport id ranges = .ok bytes := by
  have hvalid : validateRanges 0 ranges = .ok () :=
    validateRanges_iff.2 ⟨h, fun g hg => ⟨Nat.zero_le _, hword g hg⟩⟩
  rw [writeMissingReport, if_neg (Nat.not_lt.2 hcount), hvalid]
  exact ⟨_, rfl⟩

theorem parse_writeCompletionAck (id : TransferId) (limit : Nat) :
    parseRecoveryControl (writeCompletionAck id) limit = .ok (some (.completeAck id)) := by
  have hlen : (completionAckTag :: id.bytes).length = completionAckLen := by
    rw [List.length_cons, id.length_eq, completionAckLen]
  have hid : id.bytes.take 32 = id.bytes := List.take_of_length_le (Nat.le_of_eq id.length_eq)
  have htag : ¬completionAckTag = missingReportTag := by decide
  simp only [writeCompletionAck, parseRecoveryControl, if_neg htag, if_true, hlen, Nat.le_refl,
    dite_true, ne_eq, not_true_eq_false, if_false, Fixed.front, hid]

theorem leBytes_take {n : Nat} {bytes : Bytes} (h : n ≤ bytes.length) :
    Wire.leBytes n (Wire.leNat (bytes.take n)) = bytes.take n := by
  have hback := Wire.leBytes_leNat (bytes.take n)
  rwa [List.length_take_of_le h] at hback

theorem rangeBytes_readRanges (n : Nat) (bytes : Bytes)
    (hlen : bytes.length = n * missingRangeLen) : rangeBytes (readRanges n bytes) = bytes := by
  induction n generalizing bytes with
  | zero =>
    rw [Nat.zero_mul, List.length_eq_zero_iff] at hlen
    rw [hlen]
    rfl
  | succ n ih =>
    rw [Nat.succ_mul, missingRangeLen] at hlen
    have hrest : (bytes.drop 8).length = n * missingRangeLen := by
      rw [List.length_drop, missingRangeLen]
      omega
    have hsecond : 4 ≤ (bytes.drop 4).length := by
      rw [List.length_drop]
      omega
    have hdrop : (bytes.drop 4).drop 4 = bytes.drop 8 := List.drop_drop
    rw [readRanges, rangeBytes, List.flatMap_cons, ← rangeBytes, ih _ hrest,
      leBytes_take (by omega), leBytes_take hsecond, List.append_assoc, ← hdrop,
      List.take_append_drop, List.take_append_drop]

theorem length_readRanges (n : Nat) (bytes : Bytes) : (readRanges n bytes).length = n := by
  induction n generalizing bytes with
  | zero => rfl
  | succ n ih => rw [readRanges, List.length_cons, ih]

def RecoveryControl.write : RecoveryControl → Except RecoveryControlError Bytes
  | .missing id ranges => writeMissingReport id ranges
  | .completeAck id => .ok (writeCompletionAck id)

theorem write_of_parse_missing
    (h : parseRecoveryControl (missingReportTag :: body) limit = .ok result) :
    ∃ control, result = some control ∧ control.write = .ok (missingReportTag :: body) := by
  rw [parseRecoveryControl, if_pos rfl] at h
  split at h
  swap
  · cases h
  next hheader =>
  simp only at h
  split at h
  · cases h
  split at h
  · cases h
  next hsize =>
  split at h
  · cases h
  next hvalid =>
  cases h
  rw [ne_eq, not_not, List.length_cons, missingReportHeaderLen] at hsize
  generalize hn : Wire.leNat ((body.drop 32).take 2) = n at hsize hvalid
  have hfield : 2 ≤ (body.drop 32).length := by
    rw [List.length_drop]
    omega
  have hcount : Wire.leBytes 2 n = (body.drop 32).take 2 := hn ▸ leBytes_take hfield
  have hsmall : n < 256 ^ 2 := by
    have hlt := Wire.leNat_lt ((body.drop 32).take 2)
    rwa [List.length_take_of_le hfield, hn] at hlt
  have hranges : rangeBytes (readRanges n (body.drop 34)) = body.drop 34 := by
    apply rangeBytes_readRanges
    rw [List.length_drop]
    omega
  have hdrop : (body.drop 32).drop 2 = body.drop 34 := List.drop_drop
  refine ⟨_, rfl, ?_⟩
  simp only [RecoveryControl.write, writeMissingReport, length_readRanges, hvalid, Fixed.front]
  rw [if_neg (by omega), hcount, hranges, ← hdrop, List.take_append_drop, List.take_append_drop]

theorem write_of_parse_completionAck
    (h : parseRecoveryControl (completionAckTag :: body) limit = .ok result) :
    ∃ control, result = some control ∧ control.write = .ok (completionAckTag :: body) := by
  have htag : ¬completionAckTag = missingReportTag := by decide
  rw [parseRecoveryControl, if_neg htag, if_pos rfl] at h
  split at h
  swap
  · cases h
  split at h
  · cases h
  next hsize =>
  cases h
  rw [ne_eq, not_not, List.length_cons, completionAckLen] at hsize
  have hid : body.take 32 = body := List.take_of_length_le (by omega)
  refine ⟨_, rfl, ?_⟩
  simp only [RecoveryControl.write, writeCompletionAck, Fixed.front, hid]

theorem write_of_parse
    (htag : bytes.head? = some missingReportTag ∨ bytes.head? = some completionAckTag)
    (h : parseRecoveryControl bytes limit = .ok result) :
    ∃ control, result = some control ∧ control.write = .ok bytes := by
  rcases htag with htag | htag
  · obtain ⟨body, rfl⟩ := List.head?_eq_some_iff.1 htag
    exact write_of_parse_missing h
  · obtain ⟨body, rfl⟩ := List.head?_eq_some_iff.1 htag
    exact write_of_parse_completionAck h

theorem head_of_parse {control : RecoveryControl}
    (h : parseRecoveryControl bytes limit = .ok (some control)) :
    bytes.head? = some missingReportTag ∨ bytes.head? = some completionAckTag := by
  unfold parseRecoveryControl at h
  split at h
  · cases h
  next tag body =>
  by_cases hreport : tag = missingReportTag
  · exact .inl (congrArg some hreport)
  by_cases hack : tag = completionAckTag
  · exact .inr (congrArg some hack)
  · rw [if_neg hreport, if_neg hack] at h
    cases h

/-- Reports of ascending ranges that end within 32 bits and acknowledgements parse back, and what is
accepted under a recovery tag is what the writer gives for the parsed message, so a message has one
encoding. -/
theorem recovery_control_exact :
    (∀ (id : TransferId) (ranges : List (Nat × Nat)) (limit : Nat),
      ranges.length ≤ min limit 65535 → Ascending ranges →
      (∀ g ∈ ranges, g.1 + g.2 < 2 ^ 32) →
      ∃ bytes, writeMissingReport id ranges = .ok bytes ∧
        parseRecoveryControl bytes limit = .ok (some (.missing id ranges))) ∧
    (∀ (id : TransferId) (limit : Nat),
      parseRecoveryControl (writeCompletionAck id) limit = .ok (some (.completeAck id))) ∧
    (∀ (bytes : Bytes) (limit : Nat) (result : Option RecoveryControl),
      (bytes.head? = some missingReportTag ∨ bytes.head? = some completionAckTag) →
      parseRecoveryControl bytes limit = .ok result →
      ∃ control, result = some control ∧ control.write = .ok bytes) ∧
    ∀ (bytes bytes' : Bytes) (limit limit' : Nat) (control : RecoveryControl),
      parseRecoveryControl bytes limit = .ok (some control) →
      parseRecoveryControl bytes' limit' = .ok (some control) → bytes = bytes' := by
  refine ⟨?_, parse_writeCompletionAck, fun bytes limit result => write_of_parse, ?_⟩
  · intro id ranges limit hcount hranges hword
    obtain ⟨bytes, hbytes⟩ :=
      writeMissingReport_of_ascending id (hcount.trans (Nat.min_le_right ..)) hranges hword
    exact ⟨bytes, hbytes, parse_writeMissingReport hbytes (hcount.trans (Nat.min_le_left ..))⟩
  · intro bytes bytes' limit limit' control h h'
    obtain ⟨_, hcontrol, hwrite⟩ := write_of_parse (head_of_parse h) h
    obtain ⟨_, hcontrol', hwrite'⟩ := write_of_parse (head_of_parse h') h'
    cases hcontrol
    cases hcontrol'
    exact Except.ok.inj (hwrite.symm.trans hwrite')

theorem recovery_control_exact_gaps :
    ∃ bytes, writeMissingReport ⟨List.replicate 32 0, rfl⟩ [(0, 4), (8, 4)] = .ok bytes ∧
      parseRecoveryControl bytes 2 =
        .ok (some (.missing ⟨List.replicate 32 0, rfl⟩ [(0, 4), (8, 4)])) := by
  apply recovery_control_exact.1
  · decide
  · exact ⟨by decide, by decide⟩
  · decide

/-- The range of the last of 2³² bytes is non-empty and its fields fit, but the writer refuses it. -/
theorem report_of_last_byte :
    Ascending [(2 ^ 32 - 1, 1)] ∧ (∀ g ∈ [(2 ^ 32 - 1, 1)], g.1 < 2 ^ 32 ∧ g.2 < 2 ^ 32) ∧
      ∀ id : TransferId, writeMissingReport id [(2 ^ 32 - 1, 1)] = .error .invalidRange := by
  refine ⟨⟨?_, List.pairwise_singleton ..⟩, ?_, fun _ => rfl⟩
  · decide
  · decide

end Reconcile
